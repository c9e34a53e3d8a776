import FileStorage.Worker.Sequential
import FileStorage.Lib.Run
import FileStorage.Lib.Text

/-!
# One call with nobody else around

`aloneStep` is the worker's own step function with no other party: the state is
the program counter and the shared memory, and a function of
`includes/file_storage.c` has returned when the counter is where `threadF` goes
on with the result. It is the step that `Sequential` makes between two calls
(`alone_work`).

The calls start on a `WellFormed` storage: the links spell the stored files,
the counters are what is left of the capacities, and every file is as long as
its content. `wellFormed_reach` shows that the storages of the runs of
`Sequential` are.

Files are evicted in the order of `oldestFirst`, from `last` to `head`.
`evictables` are all the files that may go, and `tailRun` those that a scan
meets before it meets a file that may not. `Evicted` says what a number of
removals has changed, and nothing else.
-/

namespace FileStorage.Worker.Alone

open FileStorage.Lib FileStorage.Storage FileStorage.Worker FileStorage.Worker.Sequential

/-- The next step of a worker that is alone, until its function returns. -/
def aloneStep (rq : Request) : Pc × Shared → Option (Pc × Shared)
  | (pc, sh) =>
    if returns pc then none
    else
      match wstep rq pc sh with
      | some ⟨some pc', sh', _⟩ => some (pc', sh')
      | _ => none

section

variable {rq : Request} {pc pc' : Pc} {sh sh' : Shared} {ev : Option Event}

/-- A step of the worker that does not return is one alone. -/
theorem aloneStep_of (hr : returns pc = false) (h : wstep rq pc sh = some ⟨some pc', sh', ev⟩) :
    aloneStep rq (pc, sh) = some (pc', sh') := by
  unfold aloneStep
  simp only [hr, h]
  rfl

/-- A caller that has returned is done. -/
theorem aloneStep_returned (hr : returns pc = true) : aloneStep rq (pc, sh) = none := by
  unfold aloneStep
  simp only [hr]
  rfl

/-- A step alone is a step of the worker. -/
theorem aloneStep_cases (h : aloneStep rq (pc, sh) = some (pc', sh')) :
    returns pc = false ∧ ∃ ev, wstep rq pc sh = some ⟨some pc', sh', ev⟩ := by
  unfold aloneStep at h
  simp only at h
  split at h
  · cases h
  · next hr =>
    split at h
    · next hw =>
      cases h
      exact ⟨by simpa using hr, _, hw⟩
    · cases h

/-- Alone is what a call of `Sequential` is between its start and its return. -/
theorem alone_work (h : aloneStep rq (pc, sh) = some (pc', sh')) :
    step ⟨sh, some (rq, pc)⟩ .work =
      some ⟨sh', if returns pc' then none else some (rq, pc')⟩ := by
  obtain ⟨-, ev, hw⟩ := aloneStep_cases h
  simp only [step, hw, Option.map_some, Caller.after]
  cases hr : returns pc' <;> simp [Option.filter, hr]

end

/-! ## Well-formed storages -/

/-- The links, the counters and the sizes are right. -/
structure WellFormed (st : InfoStorage) : Prop extends SeqOk st where
  sized : st.store.Sized

/-- The node under insertion is empty. -/
def NewEmpty (s : Caller) : Prop :=
  ∀ rq x rm p, s.running = some (rq, .insert x rm p) → x.contentFile = []

/-- The node that is being created stays empty. -/
theorem newEmpty_after {rq : Request} {pc : Pc} {sh : Shared} {e : Effect}
    (hi : SeqInv ⟨sh, some (rq, pc)⟩) (hn : NewEmpty ⟨sh, some (rq, pc)⟩)
    (he : wstep rq pc sh = some e) : NewEmpty (Caller.after rq e) := by
  have hrun := hi.running
  cases pc with
  | insert x rm p =>
    obtain ⟨hs, hf, hz, hp⟩ := hrun
    obtain ⟨e', he', -, hpc⟩ := @insert_step _ rq rm _ _ hi.ok hs hf hz hp
    obtain rfl := Option.some.inj (he.symm.trans he')
    intro rq' y rm' p' hr
    rcases hpc with ⟨a, ha⟩ | ⟨rm'', p'', hp'', -⟩
    · rw [after_returns ha rfl] at hr
      cases hr
    · rw [after_goes hp'' rfl] at hr
      cases hr
      exact hn rq x rm p rfl
  | update n content rm cf p =>
    obtain ⟨ho, hp⟩ := hrun
    obtain ⟨e', he', -, hpc⟩ := @update_step _ _ rq rm _ _ _ hi.ok ho hp
    obtain rfl := Option.some.inj (he.symm.trans he')
    intro rq' y rm' p' hr
    rcases hpc with ⟨a, ha⟩ | ⟨rm'', cf'', p'', hp'', -⟩
    · rw [after_returns ha rfl] at hr
      cases hr
    · rw [after_goes hp'' rfl] at hr
      cases hr
  | _ => exact hrun.elim

/-- Sizes stay those of the contents in a step of a worker. -/
theorem sized_work {rq : Request} {pc : Pc} {sh : Shared} {e : Effect}
    (hi : SeqInv ⟨sh, some (rq, pc)⟩) (hn : NewEmpty ⟨sh, some (rq, pc)⟩)
    (hs : sh.storage.store.Sized) (he : wstep rq pc sh = some e) :
    e.shared.storage.store.Sized := by
  refine sized_trans (wstep_trans he) hs fun x hx => ?_
  have hrun := hi.running
  cases pc with
  | insert y rm p =>
    obtain rfl : y = x := Option.some.inj hx
    rw [hrun.2.2.1, hn rq y rm p rfl]
    rfl
  | _ => cases hx

theorem sized_start {s t : Caller} {c : Call} (hs : s.shared.storage.store.Sized)
    (hn : NewEmpty s) (h : start s c = some t) :
    t.shared.storage.store.Sized ∧ NewEmpty t := by
  cases c with
  | insertCreateFile name fd =>
    simp only [start, Option.some.injEq] at h
    subst h
    refine ⟨hs, fun rq x rm p hr => ?_⟩
    cases hr
    rfl
  | updateFile n fd content =>
    simp only [start] at h
    split at h
    · simp only [Option.some.injEq] at h
      subst h
      exact ⟨hs, (by intro rq x rm p hr; cases hr)⟩
    · cases h
  | openFile n fd =>
    obtain ⟨o, ho, rfl⟩ := Option.map_eq_some_iff.mp h
    cases o with
    | none => exact ⟨hs, hn⟩
    | some st =>
      obtain ⟨f, -, -, hst⟩ := store_openSection ho
      exact ⟨by show st.store.Sized; rw [hst]; exact hs.setFd, hn⟩
  | closeFile n fd =>
    obtain ⟨o, ho, rfl⟩ := Option.map_eq_some_iff.mp h
    cases o with
    | none => exact ⟨hs, hn⟩
    | some st =>
      obtain ⟨f, -, -, hst⟩ := store_closeSection ho
      exact ⟨by show st.store.Sized; rw [hst]; exact hs.setFd, hn⟩
  | readFile n =>
    obtain ⟨⟨node, st⟩, ho, rfl⟩ := Option.map_eq_some_iff.mp h
    obtain ⟨-, hst⟩ := store_readNSection ho
    refine ⟨?_, hn⟩
    show st.store.Sized
    rw [hst]
    split
    · exact hs
    · exact hs.setFd

/-- The storages between and inside the calls of a run are well formed. -/
theorem wellFormed_reach {ram nfile : Int} {s : Caller} (hnfile : 1 ≤ nfile)
    (h : Reach step (fun s mv => sound s mv = true) (init ram nfile) s) :
    WellFormed s.shared.storage := by
  have hall : SeqInv s ∧ s.shared.storage.store.Sized ∧ NewEmpty s := by
    refine h.invariant (fun s => SeqInv s ∧ s.shared.storage.store.Sized ∧ NewEmpty s)
      ⟨seqInv_init hnfile, (by intro n f hf; cases hf), (by intro rq x rm p hr; cases hr)⟩ ?_
    intro s mv t hi hg hs
    obtain ⟨hinv, hsz, hne⟩ := hi
    refine ⟨seqInv_step hinv hg hs, ?_⟩
    cases mv with
    | call c =>
      simp only [step] at hs
      split at hs
      · cases hs
      · exact sized_start hsz hne hs
    | work =>
      obtain ⟨sh, running⟩ := s
      simp only [step] at hs
      split at hs
      · cases hs
      · next rq pc =>
        obtain ⟨e, he, rfl⟩ := Option.map_eq_some_iff.mp hs
        exact ⟨sized_work hinv hne hsz he, newEmpty_after hinv hne he⟩
  exact ⟨hall.1.ok, hall.2.1⟩

/-! ## Files in the order of eviction -/

/-- The stored files from `last` to `head`. -/
def oldestFirst (st : InfoStorage) : List NodeId := st.nodes.reverse

/-- The files that may be evicted. -/
def evictables (st : InfoStorage) : List NodeId := (oldestFirst st).filter st.evictableAt

/-- The files behind the oldest one that may not be evicted. -/
def tailRun (st : InfoStorage) : List NodeId := (oldestFirst st).takeWhile st.evictableAt

/-- The bytes that files give back. -/
def gain (st : InfoStorage) (l : List NodeId) : Int := (l.map st.fileSz).sum

/-- The name behind a node. -/
def pathname (st : InfoStorage) (n : NodeId) : Bytes := ((st.file n).map (·.pathname)).getD []

/-- What evicting files appends to `buf_rm_path`. -/
def paths (st : InfoStorage) (l : List NodeId) : Bytes := joined 44 (l.map (pathname st))

/-- What removing the files `V` changes. -/
structure Evicted (V : List NodeId) (sh sh' : Shared) : Prop where
  stored : ∀ m ∈ V, sh.storage.Stored m
  nodes : sh'.storage.nodes = sh.storage.nodes.filter (· ∉ V)
  file : ∀ m, sh'.storage.file m = if m ∈ V then none else sh.storage.file m
  ramTot : sh'.storage.ramTot = sh.storage.ramTot
  ramDispo : sh'.storage.ramDispo = sh.storage.ramDispo + gain sh.storage V
  nfileTot : sh'.storage.nfileTot = sh.storage.nfileTot
  nfileDispo : sh'.storage.nfileDispo = sh.storage.nfileDispo + V.length
  brk : sh'.storage.brk = sh.storage.brk
  statistics : sh'.statistics =
    { sh.statistics with cntFileRemoved := sh.statistics.cntFileRemoved + V.length }
  sockname : sh'.sockname = sh.sockname

section

variable {st : InfoStorage} {sh sh' sh'' : Shared} {n m : NodeId} {f : File} {V W : List NodeId}

theorem gain_nil : gain st [] = 0 := rfl

theorem gain_cons : gain st (m :: V) = st.fileSz m + gain st V := by
  simp [gain]

/-- What two evictions gain adds up. -/
theorem gain_append : gain st (V ++ W) = gain st V + gain st W := by
  simp [gain]

/-- Files that did not change weigh and are called what they were. -/
theorem gain_congr {st' : InfoStorage} (h : ∀ m ∈ V, st'.file m = st.file m) :
    gain st' V = gain st V := by
  unfold gain
  refine congrArg List.sum (List.map_congr_left fun m hm => ?_)
  unfold InfoStorage.fileSz
  rw [h m hm]

theorem paths_congr {st' : InfoStorage} (h : ∀ m ∈ V, st'.file m = st.file m) :
    paths st' V = paths st V := by
  unfold paths
  refine congrArg (joined 44) (List.map_congr_left fun m hm => ?_)
  unfold pathname
  rw [h m hm]

theorem evictableAt_congr {st' : InfoStorage} (h : st'.file m = st.file m) :
    st'.evictableAt m = st.evictableAt m := by
  unfold InfoStorage.evictableAt
  rw [h]

theorem paths_nil : paths st [] = [] := rfl

/-- Their names stand one behind the other. -/
theorem paths_append : paths st (V ++ W) = paths st V ++ paths st W := by
  simp [paths, joined]

theorem paths_single (h : st.file n = some f) : paths st [n] = [44] ++ f.pathname := by
  simp [paths, joined, pathname, h]

theorem fileSz_eq (h : st.file n = some f) : st.fileSz n = f.fileSz := by
  unfold InfoStorage.fileSz
  rw [h]
  rfl

/-- No file of a well-formed storage weighs less than nothing. -/
theorem WellFormed.fileSz_nonneg (h : WellFormed st) (n : NodeId) : 0 ≤ st.fileSz n := by
  unfold InfoStorage.fileSz
  cases hf : st.file n with
  | none => exact Int.le_refl 0
  | some f =>
    show 0 ≤ f.fileSz
    rw [h.sized n f hf]
    exact Int.natCast_nonneg _

/-- Nothing is evicted at first. -/
theorem Evicted.refl (sh : Shared) : Evicted [] sh sh where
  stored := by intro m hm; cases hm
  nodes := by simp
  file := by simp
  ramTot := rfl
  ramDispo := by simp [gain]
  nfileTot := rfl
  nfileDispo := by simp
  brk := rfl
  statistics := by simp
  sockname := rfl

/-- A file that is left is none of the removed ones, and is as it was. -/
theorem Evicted.left (h : Evicted V sh sh') (hm : sh'.storage.Stored m) :
    m ∉ V ∧ sh'.storage.file m = sh.storage.file m := by
  obtain ⟨f, hf⟩ := stored_iff_files.mp hm
  have hfile := h.file m
  have hnot : m ∉ V := by
    intro hmem
    rw [if_pos hmem] at hfile
    cases hfile.symm.trans hf
  exact ⟨hnot, by rw [hfile, if_neg hnot]⟩

/-- Evicting one file leaves the files of a list without it as they are. -/
theorem Evicted.others (h : Evicted [n] sh sh') {T : List NodeId} (hn : n ∉ T) :
    ∀ m ∈ T, sh'.storage.file m = sh.storage.file m := by
  intro m hm
  have hne : m ∉ [n] := fun he => hn (List.mem_singleton.mp he ▸ hm)
  rw [h.file, if_neg hne]

/-- The other nodes keep their order. -/
theorem Evicted.oldestFirst_eq (h : Evicted V sh sh') :
    oldestFirst sh'.storage = (oldestFirst sh.storage).filter (· ∉ V) := by
  unfold oldestFirst
  rw [h.nodes, List.filter_reverse]

/-- Two evictions, one after the other. -/
theorem Evicted.trans (h : Evicted V sh sh') (h' : Evicted W sh' sh'') :
    Evicted (V ++ W) sh sh'' := by
  have hW := fun m hm => h.left (h'.stored m hm)
  have hgain : gain sh'.storage W = gain sh.storage W := gain_congr fun m hm => (hW m hm).2
  refine ⟨fun m hm => ?_, ?_, fun m => ?_, h'.ramTot.trans h.ramTot, ?_,
    h'.nfileTot.trans h.nfileTot, ?_, h'.brk.trans h.brk, ?_, h'.sockname.trans h.sockname⟩
  · rcases List.mem_append.mp hm with hm | hm
    · exact h.stored m hm
    · obtain ⟨f, hf⟩ := stored_iff_files.mp (h'.stored m hm)
      exact stored_iff_files.mpr ⟨f, (hW m hm).2.symm.trans hf⟩
  · rw [h'.nodes, h.nodes, List.filter_filter]
    refine List.filter_congr fun m _ => ?_
    simp [List.mem_append, not_or, Bool.and_comm]
  · rw [h'.file, h.file]
    by_cases hV : m ∈ V
    · simp [hV]
    · by_cases hm : m ∈ W <;> simp [hV, hm]
  · rw [h'.ramDispo, h.ramDispo, hgain, gain_append]
    omega
  · rw [h'.nfileDispo, h.nfileDispo, List.length_append]
    push_cast
    omega
  · rw [h'.statistics, h.statistics, List.length_append]
    simp only [Statistics.mk.injEq, true_and]
    push_cast
    omega

/-- The end of the list is the oldest node. -/
theorem last_eq_oldest (h : SeqOk st) : st.last = (oldestFirst st).head? := by
  unfold oldestFirst
  rw [List.head?_reverse]
  exact h.rep.linked.last_eq

theorem nodup_oldestFirst (h : SeqOk st) : (oldestFirst st).Nodup :=
  List.nodup_reverse.mpr h.rep.linked.nodup

theorem mem_oldestFirst (h : SeqOk st) : n ∈ oldestFirst st ↔ st.Stored n :=
  List.mem_reverse.trans (h.rep.mem n)

/-- Taking a node out of the list is filtering it away. -/
theorem filter_removed {l₁ l₂ : List NodeId} (h : SeqOk st) (hl : st.nodes = l₁ ++ n :: l₂) :
    st.nodes.filter (· ∉ [n]) = l₁ ++ l₂ := by
  have hnot : n ∉ l₁ ++ l₂ := (hl ▸ h.rep.linked).not_mem
  rw [hl, List.filter_append, List.filter_cons_of_neg (by simp), ← List.filter_append]
  refine List.filter_eq_self.mpr fun a ha => ?_
  have hne : a ≠ n := fun he => hnot (he ▸ ha)
  simpa using hne

/-- Removing an inner node does not take it out of the list: its father still
leads to it. -/
theorem inner_stays_linked {st' : InfoStorage} {l : List NodeId} (h : SeqOk st)
    (hn : st.Stored n) (hinner : st.inner n = true)
    (hson : ∀ m ∈ st.nodes, m ≠ n → st'.son m = st.son m) :
    st'.nodes ≠ l ++ st.nodes.filter (· ∉ [n]) := by
  intro hnodes
  obtain ⟨l₁, l₂, hl⟩ := List.append_of_mem ((h.rep.mem n).mpr hn)
  have hlinked := h.rep.linked
  rw [filter_removed h hl] at hnodes
  rw [hl] at hlinked hson
  unfold InfoStorage.inner at hinner
  rw [hlinked.son_eq, hlinked.father_eq, Bool.and_eq_true, List.isSome_head?,
    List.getLast?_isSome] at hinner
  obtain ⟨s, l₃, rfl⟩ := List.exists_cons_of_ne_nil hinner.1
  obtain ⟨l₀, a, rfl⟩ := (List.eq_nil_or_concat' l₁).resolve_left hinner.2
  have hnot : n ∉ (l₀ ++ [a]) ++ s :: l₃ := hlinked.not_mem
  have hne : a ≠ n := fun he => hnot (by simp [he])
  have hold : st.son a = some n := by
    have hlinked' : Linked st.son st.father st.head st.last (l₀ ++ a :: n :: s :: l₃) := by
      simpa using hlinked
    exact hlinked'.son_eq
  have hnew : st'.son a = some s := by
    have hwalk : follow st'.son st'.brk st'.head = (l ++ l₀) ++ a :: s :: l₃ :=
      hnodes.trans (by simp)
    exact follow_next hwalk
  have heq : n = s := by
    rw [hson a (by simp) hne, hold] at hnew
    exact Option.some.inj hnew
  exact hnot (by simp [heq])

/-- A file that is not an inner node leaves the list and the counters. -/
theorem evicted_relinked {rm : Bytes} {r : Removal} (h : SeqOk sh.storage)
    (hf : sh.storage.store.files m = some f) (hrel : Relinked sh.storage m r.storage r.currentFile)
    (hst : r.storage.store = sh.storage.store.remove m f)
    (hpath : r.rmPath = rm ++ [44] ++ f.pathname)
    (hcnt : r.nfileRemoved = sh.statistics.cntFileRemoved + 1)
    (hinner : sh.storage.inner m = false) :
    Evicted [m] sh (sh.removed r) ∧ SeqOk r.storage ∧ r.rmPath = rm ++ paths sh.storage [m] := by
  have hstored : sh.storage.Stored m := stored_iff_files.mpr ⟨f, hf⟩
  obtain ⟨l₁, l₂, hl⟩ := List.append_of_mem ((h.rep.mem m).mpr hstored)
  obtain ⟨hok, hnodes, -, hn⟩ := h.remove hl hrel hf hst hinner
  refine ⟨⟨?_, ?_, fun a => ?_, congrArg Store.ramTot hst, ?_, congrArg Store.nfileTot hst, hn,
    congrArg Store.brk hst, ?_, rfl⟩, hok, ?_⟩
  · intro a ha
    rw [List.mem_singleton.mp ha]
    exact hstored
  · show r.storage.nodes = _
    rw [hnodes, filter_removed h hl]
  · show r.storage.store.files a = _
    rw [hst]
    by_cases ha : a = m
    · subst ha
      simp
    · rw [Store.files_remove_ne ha, if_neg (by simpa using ha)]
      rfl
  · have hram : r.storage.ramDispo = sh.storage.ramDispo + f.fileSz := congrArg Store.ramDispo hst
    show r.storage.ramDispo = _
    rw [hram, gain_cons, fileSz_eq hf, gain_nil]
    omega
  · show { sh.statistics with cntFileRemoved := r.nfileRemoved } = _
    rw [hcnt]
    rfl
  · rw [hpath, paths_single hf]
    simp

/-- Taking out a node that is not inside evicts it. -/
theorem evicted_removeFile {rm : Bytes} {r : Removal} (h : SeqOk sh.storage)
    (hr : removeFile m rm sh.storage sh.statistics.cntFileRemoved = some (some r))
    (hinner : sh.storage.inner m = false) :
    Evicted [m] sh (sh.removed r) ∧ SeqOk r.storage ∧ r.rmPath = rm ++ paths sh.storage [m] := by
  obtain ⟨f, hf, -, hst, hpath, hcnt⟩ := store_removeFile hr
  exact evicted_relinked h hf (relinked_removeFile hr) hst hpath hcnt hinner

/-- So does the removal of a file that is too large. -/
theorem evicted_oversizeSection {rm : Bytes} {r : Removal} (h : SeqOk sh.storage)
    (hr : oversizeSection sh.storage m rm sh.statistics.cntFileRemoved = some r)
    (hinner : sh.storage.inner m = false) : Evicted [m] sh (sh.removed r) := by
  obtain ⟨f, hf, hst, hpath, hcnt⟩ := store_oversizeSection hr
  exact (evicted_relinked h hf (relinked_oversizeSection hr) hst hpath hcnt hinner).1

end

end FileStorage.Worker.Alone

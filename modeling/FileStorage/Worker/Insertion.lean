import FileStorage.Worker.Alone

/-!
# insertCreateFile

Where there is a slot, `insertCreateFile` puts the new node in front. Where
there is none, it scans the files from `last` to `head` and evicts the first
one that is closed and written; after that there is a slot, so it evicts no
second one. If the scan comes through, the outer loop repeats it, `TIMER` times
in all, and every time it changes nothing.

`InsertsOne` says this as a contract of the whole call. It fails in one case
only: `removeFile` does not relink around a file that has neighbours on both
sides, so evicting such a file leaves it in the list, although it is freed
(`inner_stays_linked`). `insertSound` is the condition that the file to evict
is not such a file.
-/

namespace FileStorage.Worker.Insertion

open FileStorage.Lib FileStorage.Storage FileStorage.Worker FileStorage.Worker.Sequential
open FileStorage.Worker.Alone

/-- The files `V` have left, the node has become the head, and nothing else has
changed. -/
structure Entered (x : Node) (V : List NodeId) (sh sh' : Shared) : Prop where
  head : sh'.storage.head = some sh.storage.brk
  nodes : sh'.storage.nodes = sh.storage.brk :: sh.storage.nodes.filter (· ∉ V)
  file : ∀ m, sh'.storage.file m =
    if m = sh.storage.brk then some x.toFile else if m ∈ V then none else sh.storage.file m
  ramTot : sh'.storage.ramTot = sh.storage.ramTot
  ramDispo : sh'.storage.ramDispo = sh.storage.ramDispo + gain sh.storage V
  nfileTot : sh'.storage.nfileTot = sh.storage.nfileTot
  nfileDispo : sh'.storage.nfileDispo = sh.storage.nfileDispo + V.length - 1
  statistics : sh'.statistics =
    { sh.statistics with cntFileRemoved := sh.statistics.cntFileRemoved + V.length }
  sockname : sh'.sockname = sh.sockname

/-- The contract of `insertCreateFile`: no file is evicted when there is a
slot, one when there is none and a file may go, and otherwise the call fails and
changes nothing. -/
structure InsertsOne (rq : Request) (x : Node) (sh : Shared) : Prop where
  free : ∀ rm, 0 < sh.storage.nfileDispo → ∃ sh',
    Leads (aloneStep rq) (.insert x rm .test, sh) (.reply (.okRemoved rm), sh') ∧
      Entered x [] sh sh'
  evicts : ∀ rm n, sh.storage.nfileDispo = 0 →
    (oldestFirst sh.storage).find? sh.storage.evictableAt = some n → ∃ sh',
    Leads (aloneStep rq) (.insert x rm .test, sh)
        (.reply (.okRemoved (rm ++ [44] ++ pathname sh.storage n)), sh') ∧
      Entered x [n] sh sh'
  full : ∀ rm, sh.storage.nfileDispo = 0 →
    (∀ n, sh.storage.Stored n → sh.storage.evictableAt n = false) →
    Leads (aloneStep rq) (.insert x rm .test, sh) (.reply .ko, sh)

section

variable {rq : Request} {x : Node} {rm : Bytes} {sh sh' : Shared} {cnt : Nat} {cur : Ptr}
variable {n : NodeId} {l₁ l₂ : List NodeId} {st' : InfoStorage} {r : Removal}

/-! ## The steps -/

/-- With a slot left, the loops are left for the insertion. -/
theorem leave_inner (hr : noFileRoom sh.storage = false) :
    Leads (aloneStep rq) (.insert x rm (.inner cnt cur), sh) (.insert x rm .commit, sh) := by
  have hinner : aloneStep rq (.insert x rm (.inner cnt cur), sh)
      = some (.insert x rm (.outer (cnt + 1)), sh) := by
    cases cur with
    | none => exact aloneStep_of rfl rfl
    | some c => exact aloneStep_of rfl (if_neg (by rw [hr]; decide))
  have houter : aloneStep rq (.insert x rm (.outer (cnt + 1)), sh)
      = some (.insert x rm .full, sh) := aloneStep_of rfl (if_neg (by rw [hr]; simp))
  have hfull : aloneStep rq (.insert x rm .full, sh) = some (.insert x rm .commit, sh) :=
    aloneStep_of rfl (if_neg (by rw [hr]; decide))
  exact .next hinner (.next houter (.next hfull (.refl ..)))

theorem commit_step (h : insertSection sh.storage x = some st') :
    aloneStep rq (.insert x rm .commit, sh)
      = some (.reply (.okRemoved rm), sh.setStorage st') := by
  have hw : insertStep rq x rm .commit sh = some ⟨some (.reply (.okRemoved rm)),
      sh.setStorage st', some (.opened rq sh.storage.brk)⟩ := by
    unfold insertStep
    simp only [h]
  exact aloneStep_of rfl hw

/-- A file that may not be evicted is passed over. -/
theorem refused_steps (hr : noFileRoom sh.storage = true)
    (hc : removeFile n rm sh.storage sh.statistics.cntFileRemoved = some none) :
    Leads (aloneStep rq) (.insert x rm (.inner cnt (some n)), sh)
      (.insert x rm (.inner cnt (sh.storage.father n)), sh) := by
  have hinner : aloneStep rq (.insert x rm (.inner cnt (some n)), sh)
      = some (.insert x rm (.evict cnt n), sh) := aloneStep_of rfl (if_pos hr)
  have hevict : aloneStep rq (.insert x rm (.evict cnt n), sh)
      = some (.insert x rm (.inner cnt (sh.storage.father n)), sh) := by
    have hw : insertStep rq x rm (.evict cnt n) sh
        = goto (.insert x rm (.inner cnt (sh.storage.father n))) sh := by
      unfold insertStep
      simp only [hc]
    exact aloneStep_of rfl hw
  exact .next hinner (.next hevict (.refl ..))

theorem removed_steps (hr : noFileRoom sh.storage = true)
    (hc : removeFile n rm sh.storage sh.statistics.cntFileRemoved = some (some r)) :
    Leads (aloneStep rq) (.insert x rm (.inner cnt (some n)), sh)
      (.insert x r.rmPath (.inner cnt r.currentFile), sh.removed r) := by
  have hinner : aloneStep rq (.insert x rm (.inner cnt (some n)), sh)
      = some (.insert x rm (.evict cnt n), sh) := aloneStep_of rfl (if_pos hr)
  have hevict : aloneStep rq (.insert x rm (.evict cnt n), sh)
      = some (.insert x r.rmPath (.inner cnt r.currentFile), sh.removed r) := by
    have hw : insertStep rq x rm (.evict cnt n) sh
        = some ⟨some (.insert x r.rmPath (.inner cnt r.currentFile)), sh.removed r,
          some (.evicted rq n)⟩ := by
      unfold insertStep
      simp only [hc]
    exact aloneStep_of rfl hw
  exact .next hinner (.next hevict (.refl ..))

/-- The scan passes over all files at the end of the list that may not be
evicted. -/
theorem scan (h : SeqOk sh.storage) (hr : noFileRoom sh.storage = true)
    (hl : sh.storage.nodes = l₁ ++ l₂) (hl₂ : ∀ m ∈ l₂, sh.storage.evictableAt m = false) :
    Leads (aloneStep rq) (.insert x rm (.last cnt), sh)
      (.insert x rm (.inner cnt l₁.getLast?), sh) := by
  induction l₂ generalizing l₁ with
  | nil =>
    have hlast : sh.storage.last = l₁.getLast? := by
      rw [h.rep.linked.last_eq, hl, List.append_nil]
    rw [← hlast]
    exact .next (aloneStep_of rfl rfl) (.refl ..)
  | cons a l₂ ih =>
    have hl' : sh.storage.nodes = (l₁ ++ [a]) ++ l₂ := by simpa using hl
    have hscan := ih hl' fun m hm => hl₂ m (List.mem_cons_of_mem _ hm)
    have hfather : sh.storage.father a = l₁.getLast? := (hl ▸ h.rep.linked).father_eq
    have ha : sh.storage.Stored a := (h.rep.mem a).mp (hl ▸ by simp)
    rw [List.getLast?_concat] at hscan
    rcases h.rep.removeFile_defined ha rm sh.statistics.cntFileRemoved with ⟨-, hc⟩ | ⟨he, -⟩
    · rw [← hfather]
      exact hscan.trans (refused_steps hr hc)
    · rw [hl₂ a (List.mem_cons_self ..)] at he
      cases he

/-! ## The insertion -/

theorem entered_insertSection {V : List NodeId} (hok : SeqOk sh'.storage)
    (h : Evicted V sh sh') (hins : insertSection sh'.storage x = some st')
    (hs : x.son = none) (hf : x.father = none) : Entered x V sh (sh'.setStorage st') := by
  have hst := store_insertSection hins
  have hlinks := linkedIn_insertSection hins hs hf
  have hrep := hok.rep.linkedIn hok.fresh hlinks hst
  have hfresh : st'.store.Fresh := hst ▸ hok.fresh.insert
  have hbrk := h.brk
  refine ⟨?_, ?_, fun m => ?_, (congrArg Store.ramTot hst).trans h.ramTot,
    (congrArg Store.ramDispo hst).trans h.ramDispo,
    (congrArg Store.nfileTot hst).trans h.nfileTot, ?_, h.statistics, h.sockname⟩
  · rw [← hbrk]
    exact hrep.linked.head_eq
  · rw [← hbrk, ← h.nodes]
    exact hrep.nodes_eq hfresh
  · show st'.store.files m = _
    rw [hst]
    by_cases hm : m = sh.storage.brk
    · rw [if_pos hm, hm, ← hbrk]
      exact Store.files_insert_self
    · rw [if_neg hm, ← h.file m]
      exact Store.files_insert_ne (fun he => hm (he.trans hbrk))
  · have hn : st'.nfileDispo = sh'.storage.nfileDispo - 1 := congrArg Store.nfileDispo hst
    show st'.nfileDispo = _
    rw [hn, h.nfileDispo]

/-- The outer loop repeats a scan that passes over every file. -/
theorem retries (h : SeqOk sh.storage) (hr : noFileRoom sh.storage = true)
    (hall : ∀ m ∈ sh.storage.nodes, sh.storage.evictableAt m = false) (k : Nat) :
    ∀ cnt, cnt + k = TIMER →
      Leads (aloneStep rq) (.insert x rm (.outer cnt), sh) (.reply .ko, sh) := by
  induction k with
  | zero =>
    intro cnt hcnt
    have houter : aloneStep rq (.insert x rm (.outer cnt), sh) = some (.insert x rm .full, sh) :=
      aloneStep_of rfl (if_neg (by simp; omega))
    have hfull : aloneStep rq (.insert x rm .full, sh) = some (.reply .ko, sh) :=
      aloneStep_of rfl (if_pos hr)
    exact .next houter (.next hfull (.refl ..))
  | succ k ih =>
    intro cnt hcnt
    have houter : aloneStep rq (.insert x rm (.outer cnt), sh)
        = some (.insert x rm (.last cnt), sh) :=
      aloneStep_of rfl (if_pos (by simp [hr]; omega))
    have hscan : Leads (aloneStep rq) (.insert x rm (.last cnt), sh)
        (.insert x rm (.inner cnt none), sh) := scan h hr (List.nil_append _).symm hall
    have hagain : aloneStep rq (.insert x rm (.inner cnt none), sh)
        = some (.insert x rm (.outer (cnt + 1)), sh) := aloneStep_of rfl rfl
    exact .next houter (hscan.trans (.next hagain (ih (cnt + 1) (by omega))))

/-- The first scan gets to the file that is evicted. -/
theorem first_scan {l₃ : List NodeId} (h : SeqOk sh.storage) (hr : noFileRoom sh.storage = true)
    (hfind : oldestFirst sh.storage = l₁ ++ n :: l₃)
    (hl₁ : ∀ m ∈ l₁, sh.storage.evictableAt m = false) :
    Leads (aloneStep rq) (.insert x rm .test, sh) (.insert x rm (.inner 0 (some n)), sh) := by
  have hl : sh.storage.nodes = (l₃.reverse ++ [n]) ++ l₁.reverse := by
    have hrev := congrArg List.reverse hfind
    unfold oldestFirst at hrev
    simpa using hrev
  have htest : aloneStep rq (.insert x rm .test, sh) = some (.insert x rm (.outer 0), sh) :=
    aloneStep_of rfl (if_pos hr)
  have houter : aloneStep rq (.insert x rm (.outer 0), sh) = some (.insert x rm (.last 0), sh) :=
    aloneStep_of rfl (if_pos (by rw [hr]; rfl))
  have hscan : Leads (aloneStep rq) (.insert x rm (.last 0), sh)
      (.insert x rm (.inner 0 (l₃.reverse ++ [n]).getLast?), sh) :=
    scan h hr hl fun m hm => hl₁ m (List.mem_reverse.mp hm)
  rw [List.getLast?_concat] at hscan
  exact .next htest (.next houter hscan)

/-- One eviction is enough. -/
theorem room_after (h : SeqOk sh.storage)
    (hc : removeFile n rm sh.storage sh.statistics.cntFileRemoved = some (some r)) :
    noFileRoom r.storage = false := by
  obtain ⟨f, -, -, hst, -⟩ := store_removeFile hc
  have hn : r.storage.nfileDispo = sh.storage.nfileDispo + 1 := congrArg Store.nfileDispo hst
  have hroom := h.room
  simp only [noFileRoom, decide_eq_false_iff_not]
  omega

/-- The call that evicts a file, up to its return. -/
theorem evicting_run {l₃ : List NodeId} (h : SeqOk sh.storage)
    (hr : noFileRoom sh.storage = true) (hfind : oldestFirst sh.storage = l₁ ++ n :: l₃)
    (hl₁ : ∀ m ∈ l₁, sh.storage.evictableAt m = false)
    (hc : removeFile n rm sh.storage sh.statistics.cntFileRemoved = some (some r))
    (hins : insertSection r.storage x = some st') :
    Leads (aloneStep rq) (.insert x rm .test, sh)
      (.reply (.okRemoved r.rmPath), (sh.removed r).setStorage st') := by
  have hscan : Leads (aloneStep rq) (.insert x rm .test, sh)
      (.insert x rm (.inner 0 (some n)), sh) := first_scan h hr hfind hl₁
  have hleave : Leads (aloneStep rq) (.insert x r.rmPath (.inner 0 r.currentFile), sh.removed r)
      (.insert x r.rmPath .commit, sh.removed r) := leave_inner (room_after h hc)
  have hcommit : aloneStep rq (.insert x r.rmPath .commit, sh.removed r)
      = some (.reply (.okRemoved r.rmPath), (sh.removed r).setStorage st') := commit_step hins
  exact hscan.trans ((removed_steps hr hc).trans (hleave.trans (.next hcommit (.refl ..))))

/-- After an inner file was evicted, the new node still goes in front, and the
walk still meets the evicted file. -/
theorem inner_insertion (h : SeqOk sh.storage) (hinner : sh.storage.inner n = true)
    (hc : removeFile n rm sh.storage sh.statistics.cntFileRemoved = some (some r))
    (hs : x.son = none) (hf : x.father = none) :
    ∃ st', insertSection r.storage x = some st' ∧
      st'.nodes ≠ sh.storage.brk :: sh.storage.nodes.filter (· ∉ [n]) := by
  obtain ⟨f, hfile, -, hst, -⟩ := store_removeFile hc
  have hn : sh.storage.Stored n := stored_iff_files.mpr ⟨f, hfile⟩
  have hbrk : r.storage.brk = sh.storage.brk := congrArg Store.brk hst
  obtain ⟨hhead, hson⟩ := (relinked_removeFile hc).inner hinner
  -- the head is another file, so it is still there
  have hmem : n ∈ sh.storage.nodes := (h.rep.mem n).mpr hn
  obtain ⟨t, ht⟩ : ∃ t, sh.storage.head = some t := by
    rw [h.rep.linked.head_eq]
    exact Option.isSome_iff_exists.mp (List.isSome_head?.mpr (List.ne_nil_of_mem hmem))
  have hne : t ≠ n := by
    intro heq
    subst heq
    obtain ⟨l, hl⟩ := List.head?_eq_some_iff.mp (h.rep.linked.head_eq.symm.trans ht)
    have hfirst : sh.storage.father t = none :=
      (show Linked _ _ _ _ ([] ++ t :: l) from hl ▸ h.rep.linked).father_eq
    unfold InfoStorage.inner at hinner
    rw [hfirst] at hinner
    simp at hinner
  have htstored : r.storage.Stored t := by
    obtain ⟨g, hg⟩ := stored_iff_files.mp ((h.rep.mem t).mp (h.rep.linked.head_mem ht))
    exact stored_iff_files.mpr ⟨g, by rw [hst, Store.files_remove_ne hne]; exact hg⟩
  obtain ⟨st', hins⟩ := insertSection_of_head (hhead.trans ht) htstored x
  refine ⟨st', hins, ?_⟩
  refine @inner_stays_linked _ _ _ [sh.storage.brk] h hn hinner fun m hm hmn => ?_
  have hold : m ≠ r.storage.brk := by
    obtain ⟨g, hg⟩ := stored_iff_files.mp ((h.rep.mem m).mp hm)
    exact hbrk ▸ Nat.ne_of_lt (h.fresh m g hg)
  have hsame : st'.son m = r.storage.son m := by
    cases linkedIn_insertSection hins hs hf with
    | first _ _ _ _ hson' => rw [hson', Function.update_of_ne hold]
    | front _ _ _ _ hson' => rw [hson', Function.update_of_ne hold]
  exact hsame.trans (hson m hmn)

/-! ## The contract -/

theorem evictee_eq_oldest {st : InfoStorage} (h : SeqOk st) :
    evictee st = (oldestFirst st).find? st.evictableAt := by
  unfold evictee oldestFirst
  rw [h.rep.nodes_reverse h.fresh]

/-- The file to evict is behind files that may not be evicted, and removing it
succeeds. -/
theorem evictee_removed (h : SeqOk sh.storage) (rm : Bytes)
    (hfind : (oldestFirst sh.storage).find? sh.storage.evictableAt = some n) :
    ∃ l₁ l₃ r, oldestFirst sh.storage = l₁ ++ n :: l₃ ∧
      (∀ m ∈ l₁, sh.storage.evictableAt m = false) ∧
      removeFile n rm sh.storage sh.statistics.cntFileRemoved = some (some r) := by
  obtain ⟨he, l₁, l₃, hold, hl₁⟩ := List.find?_eq_some_iff_append.mp hfind
  have hstored : sh.storage.Stored n := by
    refine (mem_oldestFirst h).mp ?_
    rw [hold]
    simp
  rcases h.rep.removeFile_defined hstored rm sh.statistics.cntFileRemoved with
    ⟨hno, -⟩ | ⟨-, r, hc⟩
  · rw [he] at hno
    cases hno
  · exact ⟨l₁, l₃, r, hold, by simpa using hl₁, hc⟩

theorem noFileRoom_iff (h : SeqOk sh.storage) :
    noFileRoom sh.storage = true ↔ sh.storage.nfileDispo = 0 := by
  have hroom := h.room
  simp only [noFileRoom, decide_eq_true_eq]
  omega

theorem insertion_free (h : SeqOk sh.storage) (hfree : 0 < sh.storage.nfileDispo)
    (hs : x.son = none) (hf : x.father = none) :
    ∃ sh', Leads (aloneStep rq) (.insert x rm .test, sh) (.reply (.okRemoved rm), sh') ∧
      Entered x [] sh sh' := by
  have hr : noFileRoom sh.storage = false := by
    simp only [noFileRoom, decide_eq_false_iff_not]
    omega
  obtain ⟨st', hins⟩ := h.rep.insertSection_defined x
  have htest : aloneStep rq (.insert x rm .test, sh) = some (.insert x rm .commit, sh) :=
    aloneStep_of rfl (if_neg (by rw [hr]; decide))
  exact ⟨sh.setStorage st', .next htest (.next (commit_step hins) (.refl ..)),
    entered_insertSection h (.refl sh) hins hs hf⟩

theorem insertion_evicts (h : SeqOk sh.storage) (hzero : sh.storage.nfileDispo = 0)
    (hfind : (oldestFirst sh.storage).find? sh.storage.evictableAt = some n)
    (hinner : sh.storage.inner n = false) (hs : x.son = none) (hf : x.father = none) :
    ∃ sh', Leads (aloneStep rq) (.insert x rm .test, sh)
        (.reply (.okRemoved (rm ++ [44] ++ pathname sh.storage n)), sh') ∧
      Entered x [n] sh sh' := by
  obtain ⟨l₁, l₃, r, hold, hl₁, hc⟩ := evictee_removed h rm hfind
  obtain ⟨hev, hok, hpath⟩ := evicted_removeFile h hc hinner
  obtain ⟨st', hins⟩ := hok.rep.insertSection_defined x
  have hrun := @evicting_run rq _ _ _ _ _ _ _ _ h ((noFileRoom_iff h).mpr hzero) hold hl₁ hc hins
  have hanswer : r.rmPath = rm ++ [44] ++ pathname sh.storage n := by
    rw [hpath]
    simp [paths, joined]
  rw [hanswer] at hrun
  have hok' : SeqOk (sh.removed r).storage := hok
  exact ⟨(sh.removed r).setStorage st', hrun, entered_insertSection hok' hev hins hs hf⟩

theorem insertion_full (h : SeqOk sh.storage) (hzero : sh.storage.nfileDispo = 0)
    (hnone : ∀ n, sh.storage.Stored n → sh.storage.evictableAt n = false) :
    Leads (aloneStep rq) (.insert x rm .test, sh) (.reply .ko, sh) := by
  have hr := (noFileRoom_iff h).mpr hzero
  have htest : aloneStep rq (.insert x rm .test, sh) = some (.insert x rm (.outer 0), sh) :=
    aloneStep_of rfl (if_pos hr)
  have hall : ∀ m ∈ sh.storage.nodes, sh.storage.evictableAt m = false :=
    fun m hm => hnone m ((h.rep.mem m).mp hm)
  exact .next htest (retries h hr hall TIMER 0 (Nat.zero_add _))

/-- An evicted inner file breaks the contract: the call goes through, but the
file is still in the list. -/
theorem not_insertsOne_of_inner (h : SeqOk sh.storage) (hr : noFileRoom sh.storage = true)
    (hfind : evictee sh.storage = some n) (hinner : sh.storage.inner n = true)
    (hs : x.son = none) (hf : x.father = none) : ¬ InsertsOne rq x sh := by
  intro hone
  rw [evictee_eq_oldest h] at hfind
  obtain ⟨sh', hrun, hent⟩ := hone.evicts [] n ((noFileRoom_iff h).mp hr) hfind
  obtain ⟨l₁, l₃, r, hold, hl₁, hc⟩ := evictee_removed h [] hfind
  obtain ⟨st', hins, hnodes⟩ := inner_insertion h hinner hc hs hf
  have hmine := @evicting_run rq _ _ _ _ _ _ _ _ h hr hold hl₁ hc hins
  have hsame : sh' = (sh.removed r).setStorage st' :=
    congrArg Prod.snd (Leads.unique hrun hmine rfl rfl)
  subst hsame
  exact hnodes hent.nodes

end

/-- **insertCreateFile evicts the oldest file it may, if and only if that file
is not between two others.** -/
theorem insertCreateFile_iff {sh : Shared} (h : WellFormed sh.storage) (rq : Request)
    (name : Bytes) (fd : Nat) :
    InsertsOne rq (createFileNode name fd) sh ↔ insertSound sh.storage = true := by
  have hok := h.toSeqOk
  constructor
  · intro hone
    by_contra hsound
    unfold insertSound at hsound
    simp only [Bool.or_eq_true, Bool.not_eq_true', not_or, Bool.not_eq_false] at hsound
    obtain ⟨hr, hall⟩ := hsound
    cases hfind : evictee sh.storage with
    | none => rw [hfind] at hall; exact hall rfl
    | some n =>
      rw [hfind] at hall
      exact not_insertsOne_of_inner hok hr hfind (by simpa using hall) rfl rfl hone
  · intro hsound
    refine ⟨fun rm hfree => insertion_free hok hfree rfl rfl, fun rm n hzero hfind => ?_,
      fun rm hzero hnone => insertion_full hok hzero hnone⟩
    have hinner : sh.storage.inner n = false := by
      unfold insertSound at hsound
      rw [(noFileRoom_iff hok).mpr hzero, evictee_eq_oldest hok, hfind] at hsound
      simpa using hsound
    exact insertion_evicts hok hzero hfind hinner rfl rfl

/-- With two slots taken and the older file closed and written, that file is
the one that goes. -/
theorem insertCreateFile_iff_oldest :
    ∃ sh, WellFormed sh.storage ∧ sh.storage.nfileDispo = 0 ∧ evictee sh.storage = some 0 ∧
      InsertsOne ⟨7, 5, .openFile [47, 99] [49]⟩ (createFileNode [47, 99] 5) sh := by
  obtain ⟨s, hr, hp⟩ := Reach.of_guarded_test step sound (init 10 2)
    [.call (.insertCreateFile [47, 97] 4), .work, .work,
      .call (.updateFile 0 4 [120]), .work, .work, .work, .work, .call (.closeFile 0 4),
      .call (.insertCreateFile [47, 98] 4), .work, .work]
    (fun s => s.shared.storage.nfileDispo == 0 && (evictee s.shared.storage == some 0 &&
      insertSound s.shared.storage)) (by decide +kernel)
  simp only [Bool.and_eq_true, beq_iff_eq] at hp
  obtain ⟨hzero, hfind, hsound⟩ := hp
  have hwf := wellFormed_reach (by decide) hr
  exact ⟨s.shared, hwf, hzero, hfind, (insertCreateFile_iff hwf _ _ _).mpr hsound⟩

/-- With three slots taken and only the file in the middle closed and written,
that file is evicted and stays in the list. -/
theorem insertCreateFile_middle :
    ∃ sh, WellFormed sh.storage ∧ sh.storage.nfileDispo = 0 ∧ evictee sh.storage = some 1 ∧
      ¬ InsertsOne ⟨7, 5, .openFile [47, 100] [49]⟩ (createFileNode [47, 100] 5) sh := by
  obtain ⟨s, hr, hp⟩ := Reach.of_guarded_test step sound (init 10 3)
    [.call (.insertCreateFile [47, 97] 4), .work, .work,
      .call (.insertCreateFile [47, 98] 4), .work, .work,
      .call (.updateFile 1 4 [120]), .work, .work, .work, .work, .call (.closeFile 1 4),
      .call (.insertCreateFile [47, 99] 4), .work, .work]
    (fun s => s.shared.storage.nfileDispo == 0 && (evictee s.shared.storage == some 1 &&
      s.shared.storage.inner 1)) (by decide +kernel)
  simp only [Bool.and_eq_true, beq_iff_eq] at hp
  obtain ⟨hzero, hfind, hinner⟩ := hp
  have hok := (wellFormed_reach (by decide) hr).toSeqOk
  exact ⟨s.shared, wellFormed_reach (by decide) hr, hzero, hfind,
    not_insertsOne_of_inner hok ((noFileRoom_iff hok).mpr hzero) hfind hinner rfl rfl⟩

end FileStorage.Worker.Insertion

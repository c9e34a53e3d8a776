import FileStorage.Worker.Scan

/-!
# UpdateFile makes room

What `UpdateFile` is for: when the bytes do not fit, evict as few of the files
that are closed and written as possible, the oldest ones first, and append; and
when evicting all of them would not be enough, evict none. `MakesRoom` is that
contract, with the case of a file that is larger than the whole storage in front
of it.

The scan of the source stops at the first file that may not be evicted (see
`Scan`), so what it can reach is only a front part of the evictable files
(`tailRun_front`), and a call that would have to fail never returns. The
contract holds when the bytes fit into that part, and for the file that deletes
itself when it is not between two others.
-/

namespace FileStorage.Worker.Room

open FileStorage.Lib FileStorage.Storage FileStorage.Worker FileStorage.Worker.Sequential
open FileStorage.Worker.Alone FileStorage.Worker.Scan

/-- A file with more bytes. -/
def extended (content : Bytes) (f : File) : File :=
  { f with
    contentFile := f.contentFile ++ content
    fileSz := f.fileSz + content.length
    modified := 1 }

/-- The files `V` have left, the target has grown by the bytes, and nothing else
has changed. -/
structure Grown (n : NodeId) (content : Bytes) (V : List NodeId) (sh sh' : Shared) : Prop where
  nodes : sh'.storage.nodes = sh.storage.nodes.filter (· ∉ V)
  file : ∀ m, sh'.storage.file m =
    if m ∈ V then none
    else if m = n then (sh.storage.file n).map (extended content) else sh.storage.file m
  ramTot : sh'.storage.ramTot = sh.storage.ramTot
  ramDispo : sh'.storage.ramDispo = sh.storage.ramDispo + gain sh.storage V - content.length
  nfileTot : sh'.storage.nfileTot = sh.storage.nfileTot
  nfileDispo : sh'.storage.nfileDispo = sh.storage.nfileDispo + V.length
  statistics : sh'.statistics =
    { sh.statistics with cntFileRemoved := sh.statistics.cntFileRemoved + V.length }
  sockname : sh'.sockname = sh.sockname

/-- The contract of `UpdateFile`: a file that is too large deletes itself and
no other; otherwise the fewest files that may be evicted go, oldest first, if
all of them would be enough, and none if they would not. -/
structure MakesRoom (rq : Request) (n : NodeId) (content : Bytes) (sh : Shared) : Prop where
  deletes : oversize sh.storage n content = true → ∀ rm, ∃ sh',
    Leads (aloneStep rq) (.update n content rm none .test, sh) (.appStats .ko, sh') ∧
      Evicted [n] sh sh'
  evicts : oversize sh.storage n content = false →
    (content.length : Int) ≤ sh.storage.ramDispo + gain sh.storage (evictables sh.storage) →
    ∀ rm, ∃ V sh', Fewest sh.storage content.length (evictables sh.storage) V ∧
      Leads (aloneStep rq) (.update n content rm none .test, sh)
        (.appStats (.okRemoved (rm ++ paths sh.storage V)), sh') ∧
      Grown n content V sh sh'
  refuses : oversize sh.storage n content = false →
    sh.storage.ramDispo + gain sh.storage (evictables sh.storage) < content.length →
    ∀ rm, Leads (aloneStep rq) (.update n content rm none .test, sh) (.appStats .ko, sh)

section

variable {st st' : InfoStorage} {sh sh' : Shared} {n : NodeId} {content rm : Bytes}
variable {V : List NodeId} {rq : Request}

/-- The files in front of the first one that may not be evicted are the first
ones of all that may. -/
theorem tailRun_front (st : InfoStorage) : tailRun st <+: evictables st := by
  unfold tailRun evictables
  induction oldestFirst st with
  | nil => exact List.prefix_refl _
  | cons a l ih =>
    cases ha : st.evictableAt a with
    | true =>
      rw [List.takeWhile_cons_of_pos ha, List.filter_cons_of_pos ha]
      exact List.cons_prefix_cons.mpr ⟨rfl, ih⟩
    | false =>
      rw [List.takeWhile_cons_of_neg (by rw [ha]; decide)]
      exact List.nil_prefix

theorem scope_le (h : WellFormed st) : scope st ≤ st.ramDispo + gain st (evictables st) := by
  obtain ⟨rest, hrest⟩ := tailRun_front st
  have hpos : 0 ≤ gain st rest := by
    refine List.sum_nonneg fun x hx => ?_
    obtain ⟨a, -, rfl⟩ := List.mem_map.mp hx
    exact h.fileSz_nonneg a
  unfold scope
  rw [← hrest, gain_append]
  omega

theorem fewest_evictables {need : Int} (h : Fewest st need (tailRun st) V) :
    Fewest st need (evictables st) V :=
  ⟨h.front.trans (tailRun_front st), h.enough, h.needed⟩

/-- The append after the evictions. -/
theorem grown_updateSection (hwf : WellFormed sh'.storage) (hev : Evicted V sh sh') (hn : n ∉ V)
    (h : updateSection sh'.storage n rq.fd content = some (some st')) :
    Grown n content V sh (sh'.setStorage st') := by
  obtain ⟨f, hf, -, hst⟩ := store_updateSection h
  have hlinks := sameLinks_updateSection h
  have hfile : sh.storage.file n = some f := by
    have hsame := hev.file n
    rw [if_neg hn] at hsame
    exact hsame.symm.trans hf
  refine ⟨?_, fun m => ?_, (congrArg Store.ramTot hst).trans hev.ramTot, ?_,
    (congrArg Store.nfileTot hst).trans hev.nfileTot,
    (congrArg Store.nfileDispo hst).trans hev.nfileDispo, hev.statistics, hev.sockname⟩
  · rw [← hev.nodes]
    show follow st'.son st'.brk st'.head = _
    rw [hlinks.son, hlinks.brk, hlinks.head]
    rfl
  · show st'.store.files m = _
    rw [hst]
    by_cases hm : m = n
    · subst hm
      rw [Store.files_append_self hf, hwf.sized.append_content hf, if_neg hn, if_pos rfl, hfile]
      rfl
    · rw [Store.files_append_ne hm, if_neg hm]
      exact hev.file m
  · have hram : st'.ramDispo = sh'.storage.ramDispo - content.length :=
      congrArg Store.ramDispo hst
    show st'.ramDispo = _
    rw [hram, hev.ramDispo]

/-- A file that is between two others stays in the list when it deletes itself. -/
theorem not_makesRoom_of_inner (h : WellFormed sh.storage) (ho : sh.storage.store.Owned n rq.fd)
    (hover : oversize sh.storage n content = true) (hinner : sh.storage.inner n = true) :
    ¬ MakesRoom rq n content sh := by
  intro hroom
  obtain ⟨sh', hrun, hev⟩ := hroom.deletes hover []
  obtain ⟨r, hr, htest, hdelete⟩ := @oversize_run sh n content [] none rq h.toSeqOk ho hover
  have hmine : Leads (aloneStep rq) (.update n content [] none .test, sh)
      (.appStats .ko, sh.removed r) := .next htest (.next hdelete (.refl ..))
  have hsame : sh' = sh.removed r := congrArg Prod.snd (Leads.unique hrun hmine rfl rfl)
  subst hsame
  obtain ⟨f, hf, -⟩ := ho
  have hstored : sh.storage.Stored n := stored_iff_files.mpr ⟨f, hf⟩
  obtain ⟨-, hson⟩ := (relinked_oversizeSection hr).inner hinner
  exact @inner_stays_linked _ _ _ [] h.toSeqOk hstored hinner (fun m _ hm => hson m hm) hev.nodes

/-- A call that cannot make room within the scope does not return. -/
theorem not_makesRoom_of_lacking (h : WellFormed sh.storage)
    (ho : sh.storage.store.Owned n rq.fd) (hover : oversize sh.storage n content = false)
    (hlack : scope sh.storage < content.length) : ¬ MakesRoom rq n content sh := by
  intro hroom
  by_cases hall : (content.length : Int)
      ≤ sh.storage.ramDispo + gain sh.storage (evictables sh.storage)
  · obtain ⟨V, sh', -, hrun, -⟩ := hroom.evicts hover hall []
    cases never_returns (scanning_start h ho hover) hlack hrun
  · have hrun := hroom.refuses hover (Int.not_le.mp hall) []
    cases never_returns (scanning_start h ho hover) hlack hrun

end

/-- **UpdateFile makes room if and only if** a file that deletes itself is not
between two others, and otherwise the scan reaches enough files. -/
theorem updateFile_makesRoom_iff {sh : Shared} (h : WellFormed sh.storage) (rq : Request)
    (n : NodeId) (content : Bytes) (ho : sh.storage.store.Owned n rq.fd) :
    MakesRoom rq n content sh ↔
      (oversize sh.storage n content = true → sh.storage.inner n = false) ∧
      (oversize sh.storage n content = false → (content.length : Int) ≤ scope sh.storage) := by
  constructor
  · intro hroom
    refine ⟨fun hover => ?_, fun hover => ?_⟩
    · cases hinner : sh.storage.inner n with
      | false => rfl
      | true => exact absurd hroom (not_makesRoom_of_inner h ho hover hinner)
    · by_contra hlack
      exact not_makesRoom_of_lacking h ho hover (Int.not_le.mp hlack) hroom
  · intro hcond
    obtain ⟨hinner, hfits⟩ := hcond
    refine ⟨fun hover rm => ?_, fun hover _ rm => ?_, fun hover hlack rm => ?_⟩
    · obtain ⟨r, hr, htest, hdelete⟩ := @oversize_run sh n content rm none rq h.toSeqOk ho hover
      exact ⟨sh.removed r, .next htest (.next hdelete (.refl ..)),
        evicted_oversizeSection h.toSeqOk hr (hinner hover)⟩
    · obtain ⟨V, sh', st', hfew, hev, hwf, hst', hrun⟩ :=
        @update_run sh n content rm rq h ho hover (hfits hover)
      obtain ⟨hn, -⟩ := owned_of_fewest ho hfew hev
      exact ⟨V, sh'.setStorage st', fewest_evictables hfew, hrun,
        grown_updateSection hwf hev hn hst'⟩
    · have hle := scope_le h
      have hfit := hfits hover
      omega

/-- With room for two bytes, appending two bytes to the second file evicts the
first one, which is closed and holds one byte. -/
theorem updateFile_makesRoom_evicting :
    ∃ sh, WellFormed sh.storage ∧ sh.storage.store.Owned 1 5 ∧ sh.storage.ramDispo = 1 ∧
      MakesRoom ⟨7, 5, .appendToFile [47, 98] [1, 2]⟩ 1 [1, 2] sh := by
  obtain ⟨s, hr, hp⟩ := Reach.of_guarded_test step sound (init 2 10)
    [.call (.insertCreateFile [47, 97] 4), .work, .work,
      .call (.updateFile 0 4 [120]), .work, .work, .work, .work, .call (.closeFile 0 4),
      .call (.insertCreateFile [47, 98] 5), .work, .work]
    (fun s => (s.shared.storage.file 1).map (·.fdClientId) == some 5 &&
      (s.shared.storage.ramDispo == 1 && (!oversize s.shared.storage 1 [1, 2] &&
        decide (2 ≤ scope s.shared.storage)))) (by decide +kernel)
  simp only [Bool.and_eq_true, Bool.not_eq_true', beq_iff_eq, decide_eq_true_eq] at hp
  obtain ⟨hfd, hram, hover, hscope⟩ := hp
  have hwf := wellFormed_reach (by decide) hr
  have ho : s.shared.storage.store.Owned 1 5 := Option.map_eq_some_iff.mp hfd
  refine ⟨s.shared, hwf, ho, hram, (updateFile_makesRoom_iff hwf _ 1 [1, 2] ho).mpr ⟨?_, ?_⟩⟩
  · intro hyes
    cases hover.symm.trans hyes
  · intro _
    exact hscope

/-- With room for two bytes, an open file of one byte in front of the scan and a
closed one behind it, appending one byte to a third file does not return. -/
theorem updateFile_stops_at_open_file :
    ∃ sh, WellFormed sh.storage ∧ sh.storage.store.Owned 2 5 ∧ evictables sh.storage = [1] ∧
      sh.storage.ramDispo + gain sh.storage [1] = 1 ∧
      ¬ MakesRoom ⟨7, 5, .appendToFile [47, 99] [1]⟩ 2 [1] sh := by
  obtain ⟨s, hr, hp⟩ := Reach.of_guarded_test step sound (init 2 10)
    [.call (.insertCreateFile [47, 97] 4), .work, .work,
      .call (.updateFile 0 4 [120]), .work, .work, .work, .work,
      .call (.insertCreateFile [47, 98] 4), .work, .work,
      .call (.updateFile 1 4 [121]), .work, .work, .work, .work, .call (.closeFile 1 4),
      .call (.insertCreateFile [47, 99] 5), .work, .work]
    (fun s => (s.shared.storage.file 2).map (·.fdClientId) == some 5 &&
      (evictables s.shared.storage == [1] &&
        (s.shared.storage.ramDispo + gain s.shared.storage [1] == 1 &&
          (!oversize s.shared.storage 2 [1] && decide (scope s.shared.storage < 1)))))
    (by decide +kernel)
  simp only [Bool.and_eq_true, Bool.not_eq_true', beq_iff_eq, decide_eq_true_eq] at hp
  obtain ⟨hfd, hev, hgain, hover, hscope⟩ := hp
  have hwf := wellFormed_reach (by decide) hr
  have ho : s.shared.storage.store.Owned 2 5 := Option.map_eq_some_iff.mp hfd
  exact ⟨s.shared, hwf, ho, hev, hgain, not_makesRoom_of_lacking hwf ho hover hscope⟩

end FileStorage.Worker.Room

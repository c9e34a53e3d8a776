import FileStorage.Worker.Alone

/-!
# The eviction loops of UpdateFile

When the bytes do not fit, `UpdateFile` scans the files from `last` to `head`
and evicts until they do. After a successful removal the cursor is the new
`last`. After a refusal it should move on to the father, but the assignment
behind the test overwrites it with `current_file`, the out parameter of the
last removal that succeeded. That is the file just refused, so the scan stays
there for ever; and if no removal has succeeded yet, the variable has no value.

So the scan never gets past the first file that may not be evicted. What it can
make room for is `scope`: the bytes that are free and the files at the end of
the list in front of that one. Evicting the last file moves its bytes from one
part to the other and keeps the sum (`scope_evictLast`), so `scope` is constant
during the call, and it decides it: the call returns if the bytes fit into
`scope` (`scan_run`), and otherwise no state from which it would return is ever
reached (`never_returns`).
-/

namespace FileStorage.Worker.Scan

open FileStorage.Lib FileStorage.Storage FileStorage.Worker FileStorage.Worker.Sequential
open FileStorage.Worker.Alone

/-- The bytes that the scan can make room for. -/
def scope (st : InfoStorage) : Int := st.ramDispo + gain st (tailRun st)

section

variable {st : InfoStorage} {sh sh' : Shared} {n m : NodeId} {content rm : Bytes} {l : List NodeId}
variable {cf : Option Ptr} {r : Removal} {p : UpdPc} {rq : Request} {cnt : Nat} {s : Int}

theorem tailRun_cons (hl : oldestFirst st = m :: l) (hm : st.evictableAt m = true) :
    tailRun st = m :: l.takeWhile st.evictableAt := by
  unfold tailRun
  rw [hl, List.takeWhile_cons_of_pos hm]

/-- The last file, seen from the list of the others. -/
theorem oldest_of_last (h : SeqOk st) (hm : st.last = some m) :
    ∃ l, oldestFirst st = m :: l ∧ m ∉ l := by
  rw [last_eq_oldest h] at hm
  obtain ⟨l, hl⟩ := List.head?_eq_some_iff.mp hm
  have hnd := nodup_oldestFirst h
  rw [hl] at hnd
  exact ⟨l, hl, (List.nodup_cons.mp hnd).1⟩

theorem inner_last (h : SeqOk st) (hm : st.last = some m) : st.inner m = false := by
  obtain ⟨l, hl⟩ : ∃ l, st.nodes = l ++ m :: [] :=
    List.getLast?_eq_some_iff.mp (h.rep.linked.last_eq ▸ hm)
  unfold InfoStorage.inner
  rw [show st.son m = none from (hl ▸ h.rep.linked).son_eq]
  rfl

/-- Evicting the last file: what it was in front of is behind it now. -/
theorem evictLast (h : WellFormed sh.storage) (hm : sh.storage.last = some m)
    (hr : removeFile m rm sh.storage sh.statistics.cntFileRemoved = some (some r)) :
    Evicted [m] sh (sh.removed r) ∧ WellFormed r.storage ∧ r.currentFile = r.storage.last ∧
      r.rmPath = rm ++ paths sh.storage [m] ∧
      ∀ l, oldestFirst sh.storage = m :: l → m ∉ l → oldestFirst r.storage = l := by
  obtain ⟨hev, hok, hpath⟩ := evicted_removeFile h.toSeqOk hr (inner_last h.toSeqOk hm)
  obtain ⟨f, -, -, hst, -⟩ := store_removeFile hr
  have hsized : r.storage.store.Sized := hst ▸ h.sized.remove
  refine ⟨hev, ⟨hok, hsized⟩, (h.toSeqOk.evictLast hm hr).2, hpath, fun l hl hnot => ?_⟩
  have hold : oldestFirst r.storage = (oldestFirst sh.storage).filter (· ∉ [m]) :=
    hev.oldestFirst_eq
  rw [hold, hl, List.filter_cons_of_neg (by simp)]
  refine List.filter_eq_self.mpr fun a ha => ?_
  have hne : a ≠ m := fun he => hnot (he ▸ ha)
  simpa using hne

/-- The scope does not change when the scan evicts a file. -/
theorem scope_evictLast (h : WellFormed sh.storage) (hm : sh.storage.last = some m)
    (hr : removeFile m rm sh.storage sh.statistics.cntFileRemoved = some (some r)) :
    scope r.storage = scope sh.storage := by
  obtain ⟨hev, -, -, -, hrest⟩ := evictLast h hm hr
  obtain ⟨f, hf, he, -⟩ := store_removeFile hr
  obtain ⟨l, hl, hnot⟩ := oldest_of_last h.toSeqOk hm
  have hfiles : ∀ a ∈ l, r.storage.file a = sh.storage.file a := hev.others hnot
  have htail : tailRun r.storage = l.takeWhile sh.storage.evictableAt := by
    unfold tailRun
    rw [hrest l hl hnot]
    clear hl hnot hrest
    induction l with
    | nil => rfl
    | cons a l ih =>
      rw [List.takeWhile_cons, List.takeWhile_cons,
        evictableAt_congr (hfiles a (List.mem_cons_self ..)),
        ih fun b hb => hfiles b (List.mem_cons_of_mem _ hb)]
  have hram : r.storage.ramDispo = sh.storage.ramDispo + gain sh.storage [m] := hev.ramDispo
  unfold scope
  rw [htail, tailRun_cons hl (evictableAt_of_file hf he), hram, gain_cons, gain_cons, gain_nil,
    gain_congr fun a ha => hfiles a ((List.takeWhile_sublist _).subset ha)]
  omega

/-- A well-formed storage has at least its free bytes in scope. -/
theorem ramDispo_le_scope (h : WellFormed st) : st.ramDispo ≤ scope st := by
  have hpos : 0 ≤ gain st (tailRun st) := by
    refine List.sum_nonneg fun x hx => ?_
    obtain ⟨a, -, rfl⟩ := List.mem_map.mp hx
    exact h.fileSz_nonneg a
  unfold scope
  omega

/-! ## Where the call can be -/

/-- What `current_file` can hold: nothing yet, or the last file. -/
def SetToLast (st : InfoStorage) (cf : Option Ptr) : Prop := cf = none ∨ cf = some st.last

/-- The states inside a call that does not delete its own file: the cursor is
on the last file, and the loops are left only when there is room. -/
def Place (st : InfoStorage) (n : NodeId) (content : Bytes) (cf : Option Ptr) : UpdPc → Prop
  | .test => cf = none ∧ oversize st n content = false
  | .oversize => False
  | .ram => cf = none
  | .outer cnt => noRamRoom st content.length = true → cnt = 0 ∧ cf = none
  | .last _ => cf = none
  | .inner _ cur => cur = st.last ∧ SetToLast st cf
  | .evict _ m => st.last = some m ∧ noRamRoom st content.length = true ∧ SetToLast st cf
  | .full | .owner _ | .commit => noRamRoom st content.length = false

/-- A state of the call, with the scope that it started with. -/
structure Scanning (rq : Request) (n : NodeId) (content : Bytes) (s : Int) (st : InfoStorage)
    (cf : Option Ptr) (p : UpdPc) : Prop where
  wf : WellFormed st
  owned : st.store.Owned n rq.fd
  scope : scope st = s
  place : Place st n content cf p

theorem noRamRoom_iff : noRamRoom st content.length = true ↔ st.ramDispo < content.length := by
  simp only [noRamRoom, decide_eq_true_eq]
  omega

/-- An open file may not be evicted. -/
theorem evictableAt_owned {fd : Nat} (h : st.store.Owned n fd) : st.evictableAt n = false := by
  obtain ⟨f, hf, hfd⟩ := h
  unfold InfoStorage.evictableAt
  rw [show st.file n = some f from hf]
  show evictable f = false
  unfold evictable
  have hne : f.fdClientId ≠ -1 := by omega
  simp [hne]

/-- The call goes on in the same storage. -/
theorem Scanning.move {cf' : Option Ptr} {p' : UpdPc} (hi : Scanning rq n content s st cf p)
    (hp : Place st n content cf' p') : Scanning rq n content s st cf' p' :=
  ⟨hi.wf, hi.owned, hi.scope, hp⟩

/-- The last file goes, and the cursor is on the new last one. -/
theorem Scanning.evicted (hi : Scanning rq n content s sh.storage cf (.evict cnt m))
    (hr : removeFile m rm sh.storage sh.statistics.cntFileRemoved = some (some r)) :
    Scanning rq n content s r.storage (some r.currentFile) (.inner cnt r.currentFile) := by
  have hm := hi.place.1
  obtain ⟨-, hwf', hcur, -, -⟩ := evictLast hi.wf hm hr
  obtain ⟨g, hg, heg, hst, -⟩ := store_removeFile hr
  have hne : n ≠ m := by
    intro heq
    subst heq
    cases (evictableAt_owned hi.owned).symm.trans (evictableAt_of_file hg heg)
  have howned : r.storage.store.Owned n rq.fd := by
    rw [hst]
    exact Store.Owned.remove hi.owned hne
  exact ⟨hwf', howned, (scope_evictLast hi.wf hm hr).trans hi.scope, hcur,
    .inr (congrArg some hcur)⟩

/-- The open file itself is stored, so there is a last one. -/
theorem Scanning.exists_last (hi : Scanning rq n content s st cf p) : ∃ m, st.last = some m := by
  obtain ⟨f, hfile, -⟩ := hi.owned
  have hmem : n ∈ oldestFirst st :=
    (mem_oldestFirst hi.wf.toSeqOk).mpr (stored_iff_files.mpr ⟨f, hfile⟩)
  rw [last_eq_oldest hi.wf.toSeqOk]
  exact Option.isSome_iff_exists.mp (List.isSome_head?.mpr (List.ne_nil_of_mem hmem))

/-- What is free is in scope. -/
theorem Scanning.enough (hi : Scanning rq n content s st cf p)
    (hroom : noRamRoom st content.length = false) : (content.length : Int) ≤ s := by
  have hle := ramDispo_le_scope hi.wf
  have hfits := fits_of_room hroom
  rw [hi.scope] at hle
  omega

/-- One step of the call. It returns only with room. -/
theorem scanning_step {pc' : Pc} (hi : Scanning rq n content s sh.storage cf p)
    (h : aloneStep rq (.update n content rm cf p, sh) = some (pc', sh')) :
    (∃ rm' cf' p', pc' = .update n content rm' cf' p' ∧
      Scanning rq n content s sh'.storage cf' p') ∨
      (returns pc' = true ∧ (content.length : Int) ≤ s) := by
  have hplace := hi.place
  obtain ⟨-, ev, hw⟩ := aloneStep_cases h
  cases updateStep_cases (show updateStep rq n content rm cf p sh = _ from hw) with
  | go hg =>
    refine .inl ⟨rm, cf, _, rfl, hi.move ?_⟩
    cases hg with
    | large hlarge hnode hfresh =>
      obtain ⟨-, hover⟩ := hplace
      unfold oversize at hover
      rw [show sh.storage.file n = some _ from file_of_heap hnode] at hover
      simp [hlarge, hfresh] at hover
    | small => exact hplace.1
    | written => exact hplace.1
    | lacks => exact fun _ => ⟨rfl, hplace⟩
    | fits room => exact room
    | again lack => exact (hplace lack).2
    | stop done =>
      show noRamRoom sh.storage content.length = false
      cases hroom : noRamRoom sh.storage content.length with
      | false => rfl
      | true =>
        -- the first counter value has not run out
        have hle := done hroom
        rw [(hplace hroom).1] at hle
        exact absurd hle (by decide)
    | last => exact ⟨rfl, .inl hplace⟩
    | scanned =>
      obtain ⟨m, hm⟩ := hi.exists_last
      exact absurd (hplace.1.trans hm) (by simp)
    | next lack => exact ⟨hplace.1.symm, lack, hplace.2⟩
    | enough room => exact fun hno => absurd (hno.symm.trans room) (by decide)
    | refused kept hset =>
      obtain ⟨-, -, hcf⟩ := hplace
      rcases hcf with hcf | hcf
      · rw [hset] at hcf
        cases hcf
      · exact ⟨Option.some.inj (hset.symm.trans hcf), .inr hcf⟩
    | room room => exact room
    | wait => exact hplace
    | owned => exact hplace
  | delete => exact hplace.elim
  | evict hr => exact .inl ⟨_, _, _, rfl, hi.evicted hr⟩
  | fail lack => exact absurd (lack.symm.trans hplace) (by decide)
  | deny => exact .inr ⟨rfl, hi.enough hplace⟩
  | commit => exact .inr ⟨rfl, hi.enough hplace⟩

/-- A whole run of the call. -/
theorem scanning_run {pc' : Pc} (h₀ : Scanning rq n content s sh.storage none .test)
    (h : Leads (aloneStep rq) (.update n content rm none .test, sh) (pc', sh')) :
    (∃ rm' cf' p', pc' = .update n content rm' cf' p' ∧
      Scanning rq n content s sh'.storage cf' p') ∨
      (returns pc' = true ∧ (content.length : Int) ≤ s) := by
  refine Leads.invariant (fun t : Pc × Shared => (∃ rm' cf' p', t.1 = .update n content rm' cf' p' ∧
      Scanning rq n content s t.2.storage cf' p') ∨
      (returns t.1 = true ∧ (content.length : Int) ≤ s)) (.inl ⟨rm, none, .test, rfl, h₀⟩) ?_ h
  intro t u ht htu
  obtain ⟨pc₁, sh₁⟩ := t
  obtain ⟨pc₂, sh₂⟩ := u
  rcases ht with ⟨rm₁, cf₁, p₁, hpc, hi⟩ | ⟨hr, -⟩
  · subst hpc
    exact scanning_step hi htu
  · rw [aloneStep_returned hr] at htu
    cases htu

/-- Bytes that do not fit into the scope keep the call from returning. -/
theorem never_returns {pc' : Pc} (h₀ : Scanning rq n content s sh.storage none .test)
    (hlack : s < content.length)
    (h : Leads (aloneStep rq) (.update n content rm none .test, sh) (pc', sh')) :
    returns pc' = false := by
  rcases scanning_run h₀ h with ⟨rm', cf', p', rfl, -⟩ | ⟨-, hle⟩
  · rfl
  · omega

/-- As long as bytes lack that fit into the scope, the scan meets only files
that may be evicted. -/
theorem meets_evictable {rm' : Bytes} (h₀ : Scanning rq n content s sh.storage none .test)
    (hfits : (content.length : Int) ≤ s)
    (h : Leads (aloneStep rq) (.update n content rm none .test, sh)
      (.update n content rm' cf (.evict cnt m), sh')) : sh'.storage.evictableAt m = true := by
  rcases scanning_run h₀ h with ⟨rm₁, cf₁, p₁, hpc, hi⟩ | ⟨hr, -⟩
  · cases hpc
    obtain ⟨hwf, -, hscope, hm, hr, -⟩ := hi
    obtain ⟨l, hl, -⟩ := oldest_of_last hwf.toSeqOk hm
    cases he : sh'.storage.evictableAt m with
    | true => rfl
    | false =>
      -- the scope would be the free bytes alone
      have htail : tailRun sh'.storage = [] := by
        unfold tailRun
        rw [hl, List.takeWhile_cons_of_neg (by rw [he]; decide)]
      have hlack := noRamRoom_iff.mp hr
      unfold scope at hscope
      rw [htail, gain_nil] at hscope
      omega
  · cases hr

/-! ## The scan that makes room -/

theorem room_of_not_lacking (h : ¬ st.ramDispo < content.length) :
    noRamRoom st content.length = false := by
  cases hr : noRamRoom st content.length with
  | false => rfl
  | true => exact absurd (noRamRoom_iff.mp hr) h

/-- The files `T` at the end of the list may be evicted. -/
structure Removable (st : InfoStorage) (T : List NodeId) : Prop where
  front : T <+: oldestFirst st
  evictable : ∀ m ∈ T, st.evictableAt m = true

/-- `V` is the shortest front part of `T` whose files, when they are evicted,
leave at least `need` bytes free. -/
structure Fewest (st : InfoStorage) (need : Int) (T V : List NodeId) : Prop where
  front : V <+: T
  enough : need ≤ st.ramDispo + gain st V
  needed : ∀ W, W <+: V → W ≠ V → st.ramDispo + gain st W < need

theorem removable_tailRun (st : InfoStorage) : Removable st (tailRun st) where
  front := List.takeWhile_prefix _
  evictable := fun _ hm => List.all_eq_true.mp List.all_takeWhile _ hm

theorem Fewest.nil {T : List NodeId} (h : ¬ st.ramDispo < content.length) :
    Fewest st content.length T [] where
  front := List.nil_prefix
  enough := by rw [gain_nil]; omega
  needed := by
    intro W hW hne
    exact absurd (List.prefix_nil.mp hW) hne

/-- While bytes lack, the last file has to go, and then the fewest of the rest. -/
theorem Fewest.cons {T V : List NodeId} {need : Int} (hlack : sh.storage.ramDispo < need)
    (hev : Evicted [m] sh sh') (hm : m ∉ T) (h : Fewest sh'.storage need T V) :
    Fewest sh.storage need (m :: T) (m :: V) := by
  have hram := hev.ramDispo
  rw [gain_cons, gain_nil] at hram
  have hgain : ∀ {W}, W <+: T → gain sh'.storage W = gain sh.storage W := by
    intro W hW
    exact gain_congr fun a ha => hev.others hm a (hW.subset ha)
  have henough := h.enough
  rw [hgain h.front] at henough
  refine ⟨List.cons_prefix_cons.mpr ⟨rfl, h.front⟩, ?_, fun W hW hne => ?_⟩
  · rw [gain_cons]
    omega
  · cases W with
    | nil =>
      rw [gain_nil]
      omega
    | cons a W =>
      obtain ⟨rfl, hW'⟩ := List.cons_prefix_cons.mp hW
      have hneeded := h.needed W hW' fun heq => hne (heq ▸ rfl)
      rw [hgain (hW'.trans h.front)] at hneeded
      rw [gain_cons]
      omega

theorem Removable.head {T : List NodeId} (h : Removable st (m :: T)) (hok : SeqOk st) :
    st.last = some m := by
  obtain ⟨rest, hrest⟩ := h.front
  rw [last_eq_oldest hok, ← hrest]
  rfl

theorem Removable.nodup {T : List NodeId} (h : Removable st T) (hok : SeqOk st) : T.Nodup :=
  (nodup_oldestFirst hok).sublist h.front.sublist

/-- Evicting the last file leaves the others where they are. -/
theorem Removable.tail {T : List NodeId} (h : Removable sh.storage (m :: T))
    (hwf : WellFormed sh.storage)
    (hr : removeFile m rm sh.storage sh.statistics.cntFileRemoved = some (some r)) :
    Removable r.storage T := by
  have hm := h.head hwf.toSeqOk
  obtain ⟨hev, -, -, -, hrest⟩ := evictLast hwf hm hr
  obtain ⟨l, hl, hnot⟩ := oldest_of_last hwf.toSeqOk hm
  have hfront := h.front
  rw [hl, List.cons_prefix_cons] at hfront
  refine ⟨hrest l hl hnot ▸ hfront.2, fun a ha => ?_⟩
  have hfile : r.storage.file a = sh.storage.file a := hev.others hnot a (hfront.2.subset ha)
  rw [evictableAt_congr hfile]
  exact h.evictable a (List.mem_cons_of_mem _ ha)

/-- While bytes lack, the last file is evicted if it may be. -/
theorem evict_steps (hm : sh.storage.last = some m)
    (hlack : sh.storage.ramDispo < content.length)
    (hr : removeFile m rm sh.storage sh.statistics.cntFileRemoved = some (some r))
    (hcur : r.currentFile = r.storage.last) :
    Leads (aloneStep rq) (.update n content rm cf (.inner cnt sh.storage.last), sh)
      (.update n content r.rmPath (some r.storage.last) (.inner cnt r.storage.last),
        sh.removed r) := by
  have hinner : aloneStep rq (.update n content rm cf (.inner cnt (some m)), sh)
      = some (.update n content rm cf (.evict cnt m), sh) :=
    aloneStep_of rfl (if_pos (noRamRoom_iff.mpr hlack))
  have hw : updateStep rq n content rm cf (.evict cnt m) sh
      = some ⟨some (.update n content r.rmPath (some r.currentFile) (.inner cnt r.currentFile)),
        sh.removed r, some (.evicted rq m)⟩ := by
    unfold updateStep
    simp only [hr]
  rw [hm, ← hcur]
  exact .next hinner (.next (aloneStep_of rfl hw) (.refl ..))

/-- The scan evicts files from the end of the list, no more than it has to. The
induction is on the files in front of the first one that may not be evicted. -/
theorem scan_run {T : List NodeId} (h : WellFormed sh.storage) (hT : Removable sh.storage T)
    (henough : (content.length : Int) ≤ sh.storage.ramDispo + gain sh.storage T) :
    ∃ V sh' cf' cur, Fewest sh.storage content.length T V ∧ Evicted V sh sh' ∧
      WellFormed sh'.storage ∧ noRamRoom sh'.storage content.length = false ∧
      Leads (aloneStep rq) (.update n content rm cf (.inner cnt sh.storage.last), sh)
        (.update n content (rm ++ paths sh.storage V) cf' (.inner cnt cur), sh') := by
  induction T generalizing sh rm cf with
  | nil =>
    have hfits : ¬ sh.storage.ramDispo < content.length := by
      rw [gain_nil] at henough
      omega
    refine ⟨[], sh, cf, sh.storage.last, .nil hfits, .refl sh, h, room_of_not_lacking hfits, ?_⟩
    rw [paths_nil, List.append_nil]
    exact .refl ..
  | cons m T ih =>
    by_cases hlack : sh.storage.ramDispo < content.length
    · have hm := hT.head h.toSeqOk
      have hstored : sh.storage.Stored m := (h.rep.mem m).mp (h.rep.linked.last_mem hm)
      rcases h.rep.removeFile_defined hstored rm sh.statistics.cntFileRemoved with
        ⟨hno, -⟩ | ⟨-, r, hr⟩
      · rw [hT.evictable m (List.mem_cons_self ..)] at hno
        cases hno
      · obtain ⟨hev, hwf, hcur, hpath, -⟩ := evictLast h hm hr
        have hnot : m ∉ T := (List.nodup_cons.mp (hT.nodup h.toSeqOk)).1
        have hother := hev.others hnot
        have hram := hev.ramDispo
        rw [gain_cons, gain_nil] at hram
        rw [gain_cons] at henough
        have henough' : (content.length : Int)
            ≤ (sh.removed r).storage.ramDispo + gain (sh.removed r).storage T := by
          rw [gain_congr hother]
          omega
        have hwf' : WellFormed (sh.removed r).storage := hwf
        have hT' : Removable (sh.removed r).storage T := hT.tail h hr
        obtain ⟨V, sh', cf', cur, hfew, hev', hwf'', hroom, hrun⟩ :=
          @ih (sh.removed r) r.rmPath (some r.storage.last) hwf' hT' henough'
        have hpaths : r.rmPath ++ paths (sh.removed r).storage V
            = rm ++ paths sh.storage (m :: V) := by
          rw [paths_congr fun a ha => hother a (hfew.front.subset ha), hpath, List.append_assoc,
            ← paths_append]
          rfl
        rw [hpaths] at hrun
        exact ⟨m :: V, sh', cf', cur, hfew.cons hlack hev hnot, hev.trans hev', hwf'', hroom,
          (evict_steps hm hlack hr hcur).trans hrun⟩
    · refine ⟨[], sh, cf, sh.storage.last, .nil hlack, .refl sh, h, room_of_not_lacking hlack, ?_⟩
      rw [paths_nil, List.append_nil]
      exact .refl ..

/-- With room, the loops are left. -/
theorem leave_inner (hroom : noRamRoom sh.storage content.length = false) (cur : Ptr) :
    Leads (aloneStep rq) (.update n content rm cf (.inner cnt cur), sh)
      (.update n content rm cf (.owner 0), sh) := by
  have hinner : aloneStep rq (.update n content rm cf (.inner cnt cur), sh)
      = some (.update n content rm cf (.outer (cnt + 1)), sh) := by
    cases cur with
    | none => exact aloneStep_of rfl rfl
    | some m => exact aloneStep_of rfl (if_neg (by rw [hroom]; decide))
  have houter : aloneStep rq (.update n content rm cf (.outer (cnt + 1)), sh)
      = some (.update n content rm cf .full, sh) :=
    aloneStep_of rfl (if_neg (by rw [hroom]; simp))
  have hfull : aloneStep rq (.update n content rm cf .full, sh)
      = some (.update n content rm cf (.owner 0), sh) :=
    aloneStep_of rfl (if_neg (by rw [hroom]; decide))
  exact .next hinner (.next houter (.next hfull (.refl ..)))

/-- The call makes room, if the bytes fit into the scope. -/
theorem make_room (h : WellFormed sh.storage)
    (hfits : (content.length : Int) ≤ scope sh.storage) :
    ∃ V sh' cf', Fewest sh.storage content.length (tailRun sh.storage) V ∧ Evicted V sh sh' ∧
      WellFormed sh'.storage ∧
      Leads (aloneStep rq) (.update n content rm cf .ram, sh)
        (.update n content (rm ++ paths sh.storage V) cf' (.owner 0), sh') := by
  by_cases hlack : sh.storage.ramDispo < content.length
  · have hr := noRamRoom_iff.mpr hlack
    have hram : aloneStep rq (.update n content rm cf .ram, sh)
        = some (.update n content rm cf (.outer 0), sh) := aloneStep_of rfl (if_pos hr)
    have houter : aloneStep rq (.update n content rm cf (.outer 0), sh)
        = some (.update n content rm cf (.last 0), sh) :=
      aloneStep_of rfl (if_pos (by rw [hr]; rfl))
    have hlast : aloneStep rq (.update n content rm cf (.last 0), sh)
        = some (.update n content rm cf (.inner 0 sh.storage.last), sh) := aloneStep_of rfl rfl
    obtain ⟨V, sh', cf', cur, hfew, hev, hwf, hroom, hrun⟩ :=
      scan_run h (removable_tailRun sh.storage) hfits
    exact ⟨V, sh', cf', hfew, hev, hwf,
      .next hram (.next houter (.next hlast (hrun.trans (leave_inner hroom cur))))⟩
  · have hram : aloneStep rq (.update n content rm cf .ram, sh)
        = some (.update n content rm cf (.owner 0), sh) :=
      aloneStep_of rfl (if_neg (by rw [room_of_not_lacking hlack]; decide))
    refine ⟨[], sh, cf, .nil hlack, .refl sh, h, .next hram ?_⟩
    rw [paths_nil, List.append_nil]
    exact .refl ..

/-! ## The whole call -/

/-- A call that does not delete its own file looks for room. -/
theorem test_ram (ho : sh.storage.store.Owned n rq.fd)
    (hover : oversize sh.storage n content = false) :
    aloneStep rq (.update n content rm cf .test, sh)
      = some (.update n content rm cf .ram, sh) := by
  obtain ⟨f, hfile, -⟩ := ho
  obtain ⟨node, hnode, rfl⟩ := heap_of_file hfile
  have hw : updateStep rq n content rm cf .test sh
      = goto (.update n content rm cf .ram) sh := by
    unfold oversize at hover
    rw [show sh.storage.file n = some node.toFile from file_of_heap hnode] at hover
    unfold updateStep
    simp only [hnode]
    by_cases hsz : sh.storage.ramTot - content.length < 0
    · have hm : ¬ node.modified = -1 := by simpa [hsz] using hover
      rw [if_pos hsz, if_neg hm]
    · rw [if_neg hsz]
  exact aloneStep_of rfl hw

/-- A file that is too large deletes itself. -/
theorem oversize_run (h : SeqOk sh.storage) (ho : sh.storage.store.Owned n rq.fd)
    (hover : oversize sh.storage n content = true) :
    ∃ r, oversizeSection sh.storage n rm sh.statistics.cntFileRemoved = some r ∧
      aloneStep rq (.update n content rm cf .test, sh)
        = some (.update n content rm cf .oversize, sh) ∧
      aloneStep rq (.update n content rm cf .oversize, sh) = some (.appStats .ko, sh.removed r) := by
  obtain ⟨f, hfile, -⟩ := ho
  obtain ⟨node, hnode, rfl⟩ := heap_of_file hfile
  have hstored : sh.storage.Stored n := stored_iff_files.mpr ⟨_, hfile⟩
  obtain ⟨r, hr⟩ := h.rep.oversizeSection_defined hstored rm sh.statistics.cntFileRemoved
  have htest : updateStep rq n content rm cf .test sh
      = goto (.update n content rm cf .oversize) sh := by
    unfold oversize at hover
    rw [show sh.storage.file n = some node.toFile from file_of_heap hnode] at hover
    simp only [Bool.and_eq_true, decide_eq_true_eq, Option.any_some, beq_iff_eq] at hover
    unfold updateStep
    simp only [hnode]
    rw [if_pos hover.1, if_pos hover.2]
  have hdelete : updateStep rq n content rm cf .oversize sh
      = some ⟨some (.appStats .ko), sh.removed r, some (.deleted rq n)⟩ := by
    unfold updateStep
    simp only [hr]
  exact ⟨r, hr, aloneStep_of rfl htest, aloneStep_of rfl hdelete⟩

/-- With room, the owner's bytes are appended. -/
theorem commit_run (ho : sh.storage.store.Owned n rq.fd) :
    ∃ st', updateSection sh.storage n rq.fd content = some (some st') ∧
      Leads (aloneStep rq) (.update n content rm cf (.owner 0), sh)
        (.appStats (.okRemoved rm), sh.setStorage st') := by
  obtain ⟨f, hfile, hfd⟩ := ho
  obtain ⟨node, hnode, rfl⟩ := heap_of_file hfile
  change node.fdClientId = (rq.fd : Int) at hfd
  obtain ⟨st', hst'⟩ : ∃ st', updateSection sh.storage n rq.fd content = some (some st') := by
    unfold updateSection
    simp [hnode, hfd]
  have howner : updateStep rq n content rm cf (.owner 0) sh
      = goto (.update n content rm cf .commit) sh := by
    unfold updateStep
    simp only [hnode, hfd]
    exact if_neg (fun hne => hne.1 rfl)
  have hcommit : updateStep rq n content rm cf .commit sh
      = some ⟨some (.appStats (.okRemoved rm)), sh.setStorage st',
        some (.appended rq n content)⟩ := by
    unfold updateStep
    simp only [hst']
  exact ⟨st', hst', .next (aloneStep_of rfl howner) (.next (aloneStep_of rfl hcommit) (.refl ..))⟩

/-- The open file is none of the evicted ones. -/
theorem owned_of_fewest {need : Int} {V : List NodeId} (ho : sh.storage.store.Owned n rq.fd)
    (hfew : Fewest sh.storage need (tailRun sh.storage) V) (hev : Evicted V sh sh') :
    n ∉ V ∧ sh'.storage.store.Owned n rq.fd := by
  have hnot : n ∉ V := by
    intro hmem
    have he := (removable_tailRun sh.storage).evictable n (hfew.front.subset hmem)
    cases (evictableAt_owned ho).symm.trans he
  obtain ⟨f, hf, hfd⟩ := ho
  refine ⟨hnot, f, ?_, hfd⟩
  have hfile := hev.file n
  rw [if_neg hnot] at hfile
  exact hfile.trans hf

/-- The call that makes room, up to its return. -/
theorem update_run (h : WellFormed sh.storage) (ho : sh.storage.store.Owned n rq.fd)
    (hover : oversize sh.storage n content = false)
    (hfits : (content.length : Int) ≤ scope sh.storage) :
    ∃ V sh' st', Fewest sh.storage content.length (tailRun sh.storage) V ∧ Evicted V sh sh' ∧
      WellFormed sh'.storage ∧ updateSection sh'.storage n rq.fd content = some (some st') ∧
      Leads (aloneStep rq) (.update n content rm none .test, sh)
        (.appStats (.okRemoved (rm ++ paths sh.storage V)), sh'.setStorage st') := by
  obtain ⟨V, sh', cf', hfew, hev, hwf, hrun⟩ := @make_room sh n content rm none rq h hfits
  obtain ⟨-, ho'⟩ := owned_of_fewest ho hfew hev
  obtain ⟨st', hst', hcommit⟩ := @commit_run sh' n content (rm ++ paths sh.storage V) cf' rq ho'
  exact ⟨V, sh', st', hfew, hev, hwf, hst', .next (test_ram ho hover) (hrun.trans hcommit)⟩

theorem scanning_start (h : WellFormed sh.storage) (ho : sh.storage.store.Owned n rq.fd)
    (hover : oversize sh.storage n content = false) :
    Scanning rq n content (scope sh.storage) sh.storage none .test :=
  ⟨h, ho, rfl, rfl, hover⟩

end

/-- `UpdateFile` returns, and its scan goes on to the father of every file that
`removeFile` has refused. -/
structure Finishes (rq : Request) (n : NodeId) (content : Bytes) (sh : Shared) : Prop where
  returned : ∀ rm, ∃ pc' sh',
    Leads (aloneStep rq) (.update n content rm none .test, sh) (pc', sh') ∧ returns pc' = true
  advances : ∀ rm rm' cf cnt m sh',
    Leads (aloneStep rq) (.update n content rm none .test, sh)
      (.update n content rm' cf (.evict cnt m), sh') →
    sh'.storage.evictableAt m = false →
    aloneStep rq (.update n content rm' cf (.evict cnt m), sh')
      = some (.update n content rm' cf (.inner cnt (sh'.storage.father m)), sh')

/-- **UpdateFile finishes if and only if** the file deletes itself, or the bytes
fit into what is free and what the files at the end of the list give back. -/
theorem updateFile_finishes_iff {sh : Shared} (h : WellFormed sh.storage) (rq : Request)
    (n : NodeId) (content : Bytes) (ho : sh.storage.store.Owned n rq.fd) :
    Finishes rq n content sh ↔
      oversize sh.storage n content = true ∨ (content.length : Int) ≤ scope sh.storage := by
  cases hover : oversize sh.storage n content with
  | true =>
    refine ⟨fun _ => .inl rfl, fun _ => ⟨fun rm => ?_, fun rm rm' cf cnt m sh' hrun _ => ?_⟩⟩
    · obtain ⟨r, -, htest, hdelete⟩ := @oversize_run sh n content rm none rq h.toSeqOk ho hover
      exact ⟨.appStats .ko, sh.removed r, .next htest (.next hdelete (.refl ..)), rfl⟩
    · -- the call returns without a scan
      obtain ⟨r, -, htest, hdelete⟩ := @oversize_run sh n content rm none rq h.toSeqOk ho hover
      rcases Relation.ReflTransGen.cases_head hrun with heq | ⟨t, ht, hrun⟩
      · cases heq
      · obtain rfl := Option.some.inj (htest.symm.trans ht)
        rcases Relation.ReflTransGen.cases_head hrun with heq | ⟨u, hu, hrun⟩
        · cases heq
        · obtain rfl := Option.some.inj (hdelete.symm.trans hu)
          cases Leads.eq_of_none hrun (aloneStep_returned rfl)
  | false =>
    have h₀ := scanning_start h ho hover
    constructor
    · intro hfin
      refine .inr (Int.not_lt.mp fun hlack => ?_)
      obtain ⟨pc', sh', hrun, hret⟩ := hfin.returned []
      rw [never_returns h₀ hlack hrun] at hret
      cases hret
    · intro hcond
      have hfits := hcond.resolve_left (by decide)
      refine ⟨fun rm => ?_, fun rm rm' cf cnt m sh' hrun hno => ?_⟩
      · obtain ⟨V, sh', st', -, -, -, -, hrun⟩ := @update_run sh n content rm rq h ho hover hfits
        exact ⟨_, _, hrun, rfl⟩
      · rw [meets_evictable h₀ hfits hrun] at hno
        cases hno

/-- With room for two bytes, appending two bytes to the second file evicts the
first one, which is closed and holds one byte. -/
theorem updateFile_finishes_evicting :
    ∃ sh, WellFormed sh.storage ∧ sh.storage.store.Owned 1 5 ∧ sh.storage.ramDispo = 1 ∧
      Finishes ⟨7, 5, .appendToFile [47, 98] [1, 2]⟩ 1 [1, 2] sh := by
  obtain ⟨s, hr, hp⟩ := Reach.of_guarded_test step sound (init 2 10)
    [.call (.insertCreateFile [47, 97] 4), .work, .work,
      .call (.updateFile 0 4 [120]), .work, .work, .work, .work, .call (.closeFile 0 4),
      .call (.insertCreateFile [47, 98] 5), .work, .work]
    (fun s => (s.shared.storage.file 1).map (·.fdClientId) == some 5 &&
      (s.shared.storage.ramDispo == 1 && decide (2 ≤ scope s.shared.storage)))
    (by decide +kernel)
  simp only [Bool.and_eq_true, beq_iff_eq, decide_eq_true_eq] at hp
  obtain ⟨hfd, hram, hscope⟩ := hp
  have hwf := wellFormed_reach (by decide) hr
  have ho : s.shared.storage.store.Owned 1 5 := Option.map_eq_some_iff.mp hfd
  exact ⟨s.shared, hwf, ho, hram, (updateFile_finishes_iff hwf _ 1 [1, 2] ho).mpr (.inr hscope)⟩

/-- With room for two bytes and two files of one byte each, appending three
bytes to the open one evicts the other one and then scans for ever. -/
theorem updateFile_scans_for_ever :
    ∃ sh, WellFormed sh.storage ∧ sh.storage.store.Owned 1 5 ∧
      ¬ Finishes ⟨7, 5, .appendToFile [47, 98] [1, 2, 3]⟩ 1 [1, 2, 3] sh := by
  obtain ⟨s, hr, hp⟩ := Reach.of_guarded_test step sound (init 2 10)
    [.call (.insertCreateFile [47, 97] 4), .work, .work,
      .call (.updateFile 0 4 [120]), .work, .work, .work, .work, .call (.closeFile 0 4),
      .call (.insertCreateFile [47, 98] 5), .work, .work,
      .call (.updateFile 1 5 [121]), .work, .work, .work, .work]
    (fun s => (s.shared.storage.file 1).map (·.fdClientId) == some 5 &&
      (!oversize s.shared.storage 1 [1, 2, 3] && decide (scope s.shared.storage < 3)))
    (by decide +kernel)
  simp only [Bool.and_eq_true, Bool.not_eq_true', beq_iff_eq, decide_eq_true_eq] at hp
  obtain ⟨hfd, hover, hscope⟩ := hp
  have hwf := wellFormed_reach (by decide) hr
  have ho : s.shared.storage.store.Owned 1 5 := Option.map_eq_some_iff.mp hfd
  refine ⟨s.shared, hwf, ho, fun hfin => ?_⟩
  obtain ⟨pc', sh', hrun, hret⟩ := hfin.returned []
  have hopen : s.shared.storage.store.Owned 1 (Request.fd ⟨7, 5, .appendToFile [47, 98] [1, 2, 3]⟩) :=
    ho
  have hnot := never_returns (scanning_start hwf hopen hover) hscope hrun
  rw [hret] at hnot
  cases hnot

end FileStorage.Worker.Scan

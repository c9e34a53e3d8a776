import FileStorage.Worker.Steps

/-!
# Everything one step of a worker can do

`Trans` lists, for each program counter, what a step may do to the store and
where the worker goes on, with every condition the step has checked on the
files. It forgets only what depends on the links (which node a cursor moves
to), so it describes the handlers whatever the links look like. `wstep_trans`
is the inversion of `wstep` into it: every invariant about files, owners,
counters and the history is proved by cases on `Trans` and never unfolds a
handler again.

`absent p` stands for what a failed search for `p` has established.
-/

namespace FileStorage.Worker

open FileStorage.Lib FileStorage.Storage

/-- Past the last test of `ram_dispo` in `UpdateFile`. -/
def UpdPc.paid : UpdPc → Bool
  | .owner _ => true
  | .commit => true
  | _ => false

/-- The node a worker is about to insert. -/
def creating : Pc → Option Node
  | .insert x _ _ => some x
  | _ => none

inductive Trans (rq : Request) (absent : Bytes → Prop) :
    Pc → Store → Option Pc → Store → Option Event → Prop
  -- OPEN FILE
  | openKo {p fl s} : Trans rq absent (.openSearch p fl) s (some (.reply .ko)) s none
  | openNew {p fl s} : absent p →
      Trans rq absent (.openSearch p fl) s
        (some (.insert (createFileNode p rq.fd) [] .test)) s none
  | openOld {p fl s n f} : s.files n = some f → p <+: f.pathname →
      Trans rq absent (.openSearch p fl) s (some (.openPoll n 0)) s none
  | openTake {n c s f} : s.files n = some f → f.fdClientId = -1 →
      Trans rq absent (.openPoll n c) s (some (.reply .ok)) (s.setFd n rq.fd)
        (some (.opened rq n))
  | openWait {n c s} : Trans rq absent (.openPoll n c) s (some (.openPoll n (c + 1))) s none
  | openGiveUp {n c s} : Trans rq absent (.openPoll n c) s (some (.reply .ko)) s none
  -- insertCreateFile
  | insMove {x rm p p' s} : p ≠ .commit → (p' = .commit → 0 < s.nfileDispo) →
      Trans rq absent (.insert x rm p) s (some (.insert x rm p')) s none
  | insEvict {x rm cnt c cur s f} : s.files c = some f → evictable f = true →
      Trans rq absent (.insert x rm (.evict cnt c)) s
        (some (.insert x (rm ++ [44] ++ f.pathname) (.inner cnt cur))) (s.remove c f)
        (some (.evicted rq c))
  | insFail {x rm s} : Trans rq absent (.insert x rm .full) s (some (.reply .ko)) s none
  | insCommit {x rm s} :
      Trans rq absent (.insert x rm .commit) s (some (.reply (.okRemoved rm)))
        (s.insert x.toFile) (some (.opened rq s.brk))
  -- READ FILE
  | readKo {p s} : Trans rq absent (.readSearch p) s (some (.reply .ko)) s none
  | readFound {p s n f} : s.files n = some f → p <+: f.pathname →
      Trans rq absent (.readSearch p) s (some (.readPoll n 0)) s none
  | readWait {n c s} : Trans rq absent (.readPoll n c) s (some (.readPoll n (c + 1))) s none
  | readGo {n c s} : Trans rq absent (.readPoll n c) s (some (.readLocked n)) s none
  | readDeny {n s} : Trans rq absent (.readLocked n) s (some (.reply .ko)) s none
  | readSend {n s f} : s.files n = some f → f.fdClientId = (rq.fd : Int) →
      Trans rq absent (.readLocked n) s none s
        (some (.frame rq n f.pathname f.fileSz f.contentFile))
  -- READ N FILES
  | nStart {n k s} : Trans rq absent (.readNStart n) s (some (.readNHead k)) s none
  | nHead {k cur s} : Trans rq absent (.readNHead k) s (some (.readNLoop k k cur)) s none
  | nSkip {ch k n cur s f} : s.files n = some f → f.modified = -1 →
      Trans rq absent (.readNLoop ch k (some n)) s (some (.readNLoop ch k cur)) s none
  | nSend {ch k n cur s f} : 0 < k → s.files n = some f → f.modified ≠ -1 →
      Trans rq absent (.readNLoop ch k (some n)) s (some (.readNLoop ch (k - 1) cur))
        (s.setFd n (-1)) (some (.frame rq n f.pathname f.fileSz f.contentFile))
  | nEnd {ch k cur a s} :
      Trans rq absent (.readNLoop ch k cur) s (some (.reply (if k = ch then .ko else a))) s none
  -- APPEND TO FILE
  | appKo {p c s} : Trans rq absent (.appSearch p c) s (some (.appStats .ko)) s none
  | appFound {p c s n f} : s.files n = some f → p <+: f.pathname →
      Trans rq absent (.appSearch p c) s (some (.appPoll n 0 c)) s none
  | appWait {n k c s} : Trans rq absent (.appPoll n k c) s (some (.appPoll n (k + 1) c)) s none
  | appGo {n k c s} : Trans rq absent (.appPoll n k c) s (some (.appLocked n c)) s none
  | appDeny {n c s} : Trans rq absent (.appLocked n c) s (some (.appStats .ko)) s none
  | appStart {n c s f} : s.files n = some f → f.fdClientId = (rq.fd : Int) →
      Trans rq absent (.appLocked n c) s (some (.update n c [] none .test)) s none
  -- UpdateFile
  | updMove {n c rm cf p p' s} : p ≠ .commit → p ≠ .oversize →
      (p.paid = false → p'.paid = true → (c.length : Int) ≤ s.ramDispo) →
      Trans rq absent (.update n c rm cf p) s (some (.update n c rm cf p')) s none
  | updEvict {n c rm cf cf' cnt m cur s f} : s.files m = some f → evictable f = true →
      Trans rq absent (.update n c rm cf (.evict cnt m)) s
        (some (.update n c (rm ++ [44] ++ f.pathname) cf' (.inner cnt cur))) (s.remove m f)
        (some (.evicted rq m))
  | updDelete {n c rm cf s f} : s.files n = some f →
      Trans rq absent (.update n c rm cf .oversize) s (some (.appStats .ko)) (s.remove n f)
        (some (.deleted rq n))
  | updFail {n c rm cf p s} :
      Trans rq absent (.update n c rm cf p) s (some (.appStats .ko)) s none
  | updCommit {n c rm cf s f} : s.files n = some f → f.fdClientId = (rq.fd : Int) →
      Trans rq absent (.update n c rm cf .commit) s (some (.appStats (.okRemoved rm)))
        (s.append n c) (some (.appended rq n c))
  | stats {a s} : Trans rq absent (.appStats a) s (some (.reply a)) s none
  -- CLOSE FILE
  | closeKo {p s} : Trans rq absent (.closeSearch p) s (some (.reply .ko)) s none
  | closeFound {p s n f} : s.files n = some f → p <+: f.pathname →
      Trans rq absent (.closeSearch p) s (some (.closePoll n 0)) s none
  | closeTake {n c s f} : s.files n = some f → f.fdClientId = (rq.fd : Int) →
      Trans rq absent (.closePoll n c) s (some (.reply .ok)) (s.setFd n (-1))
        (some (.closed rq n))
  | closeWait {n c s} : Trans rq absent (.closePoll n c) s (some (.closePoll n (c + 1))) s none
  | closeGiveUp {n c s} : Trans rq absent (.closePoll n c) s (some (.reply .ko)) s none
  -- CLOSE CONNECTION and the answer
  | closeConn {sn a s} : Trans rq absent (.closeConn sn) s none s (some (.disconnected rq a))
  | reply {a s} : Trans rq absent (.reply a) s none s (some (.answered rq a))

variable {rq : Request} {sh : Shared} {e : Effect}

/-- What a failed search in the current storage has established. -/
def Absent (st : InfoStorage) (p : Bytes) : Prop := searchFileNode p st = some none

theorem insertStep_trans {x : Node} {rm : Bytes} {p : InsPc}
    (h : insertStep rq x rm p sh = some e) :
    Trans rq (Absent sh.storage) (.insert x rm p) sh.storage.store e.pc e.shared.storage.store
      e.event := by
  cases insertStep_cases h with
  | go hg =>
    refine .insMove (by cases hg <;> simp) fun hc => ?_
    cases hg with
    | free room => exact slot_of_room room
    | room room => exact slot_of_room room
    | _ => cases hc
  | @evict _ _ r hr =>
    obtain ⟨f, hf, he, hs, hp, -⟩ := store_removeFile hr
    show Trans _ _ _ _ (some (.insert x r.rmPath _)) r.storage.store _
    rw [hs, hp]
    exact .insEvict hf he
  | fail => exact .insFail
  | @commit st hst =>
    show Trans _ _ _ _ _ st.store _
    rw [store_insertSection hst]
    exact .insCommit

theorem updateStep_trans {n : NodeId} {c rm : Bytes} {cf : Option Ptr} {p : UpdPc}
    (h : updateStep rq n c rm cf p sh = some e) :
    Trans rq (Absent sh.storage) (.update n c rm cf p) sh.storage.store e.pc
      e.shared.storage.store e.event := by
  cases updateStep_cases h with
  | go hg =>
    refine .updMove (by cases hg <;> simp) (by cases hg <;> simp) fun hunpaid hpaid => ?_
    cases hg with
    | fits room => exact fits_of_room room
    | room room => exact fits_of_room room
    | wait => cases hunpaid
    | owned => cases hunpaid
    | _ => cases hpaid
  | @delete r hr =>
    obtain ⟨f, hf, hs, -, -⟩ := store_oversizeSection hr
    show Trans _ _ _ _ _ r.storage.store _
    rw [hs]
    exact .updDelete hf
  | @evict _ _ r hr =>
    obtain ⟨f, hf, he, hs, hp, -⟩ := store_removeFile hr
    show Trans _ _ _ _ (some (.update n c r.rmPath _ _)) r.storage.store _
    rw [hs, hp]
    exact .updEvict hf he
  | fail => exact .updFail
  | deny => exact .updFail
  | @commit st hst =>
    obtain ⟨f, hf, ho, hs⟩ := store_updateSection hst
    show Trans _ _ _ _ _ st.store _
    rw [hs]
    exact .updCommit hf ho

theorem goes_trans {pc pc' : Pc} (h : Goes rq sh.storage pc pc') :
    Trans rq (Absent sh.storage) pc sh.storage.store (some pc') sh.storage.store none := by
  -- a name that was looked up has its file
  have found : ∀ {p : Bytes} {n : NodeId}, searchFileNode p sh.storage = some (some n) →
      ∃ f, sh.storage.store.files n = some f ∧ p <+: f.pathname :=
    fun hs => searchLoop_found hs
  cases h with
  | openKo => exact .openKo
  | openNew hs => exact .openNew hs
  | openOld hs =>
    obtain ⟨f, hf, hp⟩ := found hs
    exact .openOld hf hp
  | openWait => exact .openWait
  | openGiveUp => exact .openGiveUp
  | readKo => exact .readKo
  | readFound hs =>
    obtain ⟨f, hf, hp⟩ := found hs
    exact .readFound hf hp
  | readWait => exact .readWait
  | readGo => exact .readGo
  | readDeny => exact .readDeny
  | nStart => exact .nStart
  | nHead => exact .nHead
  | nSkip hn hm => exact .nSkip (file_of_heap hn) hm
  | nEnd => exact .nEnd
  | appKo => exact .appKo
  | appFound hs =>
    obtain ⟨f, hf, hp⟩ := found hs
    exact .appFound hf hp
  | appWait => exact .appWait
  | appGo => exact .appGo
  | appDeny => exact .appDeny
  | appStart hn ho => exact .appStart (file_of_heap hn) ho
  | closeKo => exact .closeKo
  | closeFound hs =>
    obtain ⟨f, hf, hp⟩ := found hs
    exact .closeFound hf hp
  | closeWait => exact .closeWait
  | closeGiveUp => exact .closeGiveUp

/-- **The inversion of a step.** -/
theorem wstep_trans {pc : Pc} (h : wstep rq pc sh = some e) :
    Trans rq (Absent sh.storage) pc sh.storage.store e.pc e.shared.storage.store e.event := by
  cases wstep_cases h with
  | go hg => exact goes_trans hg
  | insert he => exact insertStep_trans he
  | update he => exact updateStep_trans he
  | @openTake _ _ st hst =>
    obtain ⟨f, hf, ho, hs⟩ := store_openSection hst
    show Trans _ _ _ _ _ st.store _
    rw [hs]
    exact .openTake hf ho
  | @closeTake _ _ st hst =>
    obtain ⟨f, hf, ho, hs⟩ := store_closeSection hst
    show Trans _ _ _ _ _ st.store _
    rw [hs]
    exact .closeTake hf ho
  | readSend hn ho => exact .readSend (file_of_heap hn) ho
  | @nSend _ _ _ _ st hk hst hm =>
    obtain ⟨hn, hs⟩ := store_readNSection hst
    show Trans _ _ _ _ _ st.store _
    rw [hs, if_neg hm]
    exact .nSend hk (file_of_heap hn) hm
  | stats => exact .stats
  | closeConn => exact .closeConn
  | reply => exact .reply

/-! ## What every step keeps -/

section

variable {A : Bytes → Prop} {pc : Pc} {pc' : Option Pc} {st st' : Store} {ev : Option Event}

theorem fresh_trans (h : Trans rq A pc st pc' st' ev) (hf : st.Fresh) : st'.Fresh := by
  cases h with
  | insCommit => exact hf.insert
  | openTake => exact hf.setFd
  | closeTake => exact hf.setFd
  | nSend => exact hf.setFd
  | insEvict => exact hf.remove
  | updEvict => exact hf.remove
  | updDelete => exact hf.remove
  | updCommit => exact hf.append
  | _ => exact hf

/-- The counters follow the files. `hnew`: a new file is empty. -/
theorem balanced_trans (h : Trans rq A pc st pc' st' ev) (hf : st.Fresh) (hb : st.Balanced)
    (hnew : ∀ x, creating pc = some x → x.fileSz = 0) : st'.Balanced := by
  cases h with
  | insCommit => exact hb.insert (hnew _ rfl)
  | openTake hn => exact hb.setFd hf hn _
  | closeTake hn => exact hb.setFd hf hn _
  | nSend _ hn => exact hb.setFd hf hn _
  | insEvict hn => exact hb.remove hf hn
  | updEvict hn => exact hb.remove hf hn
  | updDelete hn => exact hb.remove hf hn
  | updCommit hn => exact hb.append hf hn _
  | _ => exact hb

theorem sized_trans (h : Trans rq A pc st pc' st' ev) (hs : st.Sized)
    (hnew : ∀ x, creating pc = some x → x.fileSz = x.contentFile.length) : st'.Sized := by
  cases h with
  | insCommit => exact hs.insert (hnew _ rfl)
  | openTake => exact hs.setFd
  | closeTake => exact hs.setFd
  | nSend => exact hs.setFd
  | insEvict => exact hs.remove
  | updEvict => exact hs.remove
  | updDelete => exact hs.remove
  | updCommit => exact hs.append
  | _ => exact hs

/-- Every file is marked as never written or as written. -/
def Marked (s : Store) : Prop := ∀ n f, s.files n = some f → f.modified = -1 ∨ f.modified = 1

/-- A step keeps the marks: a new file is never written, and an append writes. -/
theorem marked_trans (h : Trans rq A pc st pc' st' ev) (hs : Marked st)
    (hnew : ∀ x, creating pc = some x → x.modified = -1) : Marked st' := by
  have hremove : ∀ m g, Marked (st.remove m g) :=
    fun m g n f hf => hs n f (Store.of_files_remove hf).2
  have hset : ∀ m fd, Marked (st.setFd m fd) := by
    intro m fd n f hf
    obtain ⟨g, hg, ⟨rfl, -⟩ | ⟨rfl, -⟩⟩ := Store.of_files_setFd hf
    · exact hs n g hg
    · exact hs n f hg
  cases h with
  | insCommit =>
    intro n f hf
    rcases Store.of_files_insert hf with ⟨-, rfl⟩ | ⟨-, hold⟩
    · exact .inl (hnew _ rfl)
    · exact hs n f hold
  | updCommit =>
    intro n f hf
    obtain ⟨g, hg, ⟨rfl, -⟩ | ⟨rfl, -⟩⟩ := Store.of_files_append hf
    · exact .inr rfl
    · exact hs n f hg
  | openTake => exact hset _ _
  | closeTake => exact hset _ _
  | nSend => exact hset _ _
  | insEvict => exact hremove _ _
  | updEvict => exact hremove _ _
  | updDelete => exact hremove _ _
  | _ => exact hs

end

/-! ## What a step does to the links -/

/-- The node that the next step removes. -/
def removes (st : InfoStorage) : Pc → Option NodeId
  | .insert _ _ (.evict _ c) => if st.evictableAt c then some c else none
  | .update _ _ _ _ (.evict _ m) => if st.evictableAt m then some m else none
  | .update n _ _ _ .oversize => some n
  | _ => none

/-- A step keeps the links, takes the node of `removes` out, or puts the node
of `creating` in. -/
inductive Edit (pc : Pc) (st st' : InfoStorage) : Prop
  | keep (h : SameLinks st st')
  | remove {n : NodeId} {f : File} {cur : Ptr} (hpc : removes st pc = some n)
      (h : Relinked st n st' cur) (hf : st.store.files n = some f)
      (hst : st'.store = st.store.remove n f)
  | insert {x : Node} (hpc : creating pc = some x) (h : LinkedIn st st')
      (hst : st'.store = st.store.insert x.toFile)

theorem insertStep_edit {x : Node} {rm : Bytes} {p : InsPc}
    (h : insertStep rq x rm p sh = some e) (hnew : x.son = none ∧ x.father = none) :
    Edit (.insert x rm p) sh.storage e.shared.storage := by
  cases insertStep_cases h with
  | go => exact .keep (.refl _)
  | evict hr =>
    obtain ⟨f, hf, he, hst, -⟩ := store_removeFile hr
    exact .remove (if_pos (evictableAt_of_file hf he)) (relinked_removeFile hr) hf hst
  | fail => exact .keep (.refl _)
  | commit hst =>
    exact .insert rfl (linkedIn_insertSection hst hnew.1 hnew.2) (store_insertSection hst)

theorem updateStep_edit {n : NodeId} {c rm : Bytes} {cf : Option Ptr} {p : UpdPc}
    (h : updateStep rq n c rm cf p sh = some e) :
    Edit (.update n c rm cf p) sh.storage e.shared.storage := by
  cases updateStep_cases h with
  | go => exact .keep (.refl _)
  | delete hr =>
    obtain ⟨f, hf, hst, -⟩ := store_oversizeSection hr
    exact .remove rfl (relinked_oversizeSection hr) hf hst
  | evict hr =>
    obtain ⟨f, hf, he, hst, -⟩ := store_removeFile hr
    exact .remove (if_pos (evictableAt_of_file hf he)) (relinked_removeFile hr) hf hst
  | fail => exact .keep (.refl _)
  | deny => exact .keep (.refl _)
  | commit hst => exact .keep (sameLinks_updateSection hst)

/-- The inversion of a step down to the links. -/
theorem wstep_edit {pc : Pc} (h : wstep rq pc sh = some e)
    (hnew : ∀ x, creating pc = some x → x.son = none ∧ x.father = none) :
    Edit pc sh.storage e.shared.storage := by
  cases wstep_cases h with
  | insert he => exact insertStep_edit he (hnew _ rfl)
  | update he => exact updateStep_edit he
  | openTake hst => exact .keep (sameLinks_openSection hst)
  | closeTake hst => exact .keep (sameLinks_closeSection hst)
  | nSend _ hst => exact .keep (sameLinks_readNSection hst)
  | _ => exact .keep (.refl _)

section

variable {pc : Pc} {st st' : InfoStorage} {l : List NodeId} {m : NodeId}

/-- Only the removed node is not stored any more. -/
theorem Edit.stored (h : Edit pc st st') (hfresh : st.store.Fresh) (hm : st.Stored m)
    (hne : removes st pc ≠ some m) : st'.Stored m := by
  obtain ⟨f, hf⟩ := stored_iff_files.mp hm
  cases h with
  | keep hs => exact (hs.stored m).mpr hm
  | remove hpc _ _ hst =>
    have hmn : m ≠ _ := fun e => hne (e ▸ hpc)
    exact stored_iff_files.mpr ⟨f, by rw [hst, Store.files_remove_ne hmn]; exact hf⟩
  | insert _ _ hst =>
    refine stored_iff_files.mpr ⟨f, ?_⟩
    rw [hst, Store.files_insert_ne (Nat.ne_of_lt (hfresh m f hf))]
    exact hf

/-- The storage stays a list, if no node is taken out of the middle. -/
theorem Edit.rep (h : Edit pc st st') (hrep : Rep st l) (hfresh : st.store.Fresh)
    (hend : ∀ n, removes st pc = some n → st.inner n = false) : ∃ l', Rep st' l' := by
  cases h with
  | keep hs => exact ⟨l, hrep.sameLinks hs⟩
  | @remove n f cur hpc hlinks hf hst =>
    obtain ⟨l₁, l₂, rfl⟩ := List.append_of_mem ((hrep.mem n).mpr (stored_iff_files.mpr ⟨f, hf⟩))
    exact ⟨_, (hrep.relinked hlinks hst (hend n hpc)).1⟩
  | insert _ hlinks hst => exact ⟨_, hrep.linkedIn hfresh hlinks hst⟩

end

end FileStorage.Worker

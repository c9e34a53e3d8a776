import FileStorage.Worker.Model
import FileStorage.Storage.Rep

/-!
# What a step of a worker does

`insertCreateFile` and `UpdateFile` go from section to section; most of their
steps only test something and go on (`InsGoes`, `UpdGoes`, with the outcome of
the test), and the others change the storage (`InsStep`, `UpdStep`). The other
handlers are described in the same way (`Goes`, `WStep`). `insertStep_cases`,
`updateStep_cases` and `wstep_cases` are the inversions of the step functions;
whatever holds of a step is proved by cases on them.
-/

namespace FileStorage.Worker

open FileStorage.Lib FileStorage.Storage

variable {rq : Request} {sh : Shared} {e : Effect} {n : NodeId}

/-- Behind the test for a free slot there is one. -/
theorem slot_of_room {st : InfoStorage} (h : noFileRoom st = false) : 0 < st.nfileDispo := by
  simpa [noFileRoom] using h

/-- Behind the test for free bytes they suffice. -/
theorem fits_of_room {st : InfoStorage} {k : Int} (h : noRamRoom st k = false) :
    k ≤ st.ramDispo := by
  simpa [noRamRoom] using h

/-! ## insertCreateFile -/

/-- The steps that go on in the same storage. -/
inductive InsGoes (st : InfoStorage) : InsPc → InsPc → Prop
  | lacks (lack : noFileRoom st = true) : InsGoes st .test (.outer 0)
  | free (room : noFileRoom st = false) : InsGoes st .test .commit
  | again {cnt : Nat} (lack : noFileRoom st = true) : InsGoes st (.outer cnt) (.last cnt)
  | stop {cnt : Nat} (done : noFileRoom st = true → TIMER ≤ cnt) : InsGoes st (.outer cnt) .full
  | last {cnt : Nat} : InsGoes st (.last cnt) (.inner cnt st.last)
  | scanned {cnt : Nat} : InsGoes st (.inner cnt none) (.outer (cnt + 1))
  | next {cnt : Nat} {c : NodeId} (lack : noFileRoom st = true) :
      InsGoes st (.inner cnt (some c)) (.evict cnt c)
  | enough {cnt : Nat} {c : NodeId} (room : noFileRoom st = false) :
      InsGoes st (.inner cnt (some c)) (.outer (cnt + 1))
  | refused {cnt : Nat} {c : NodeId} (kept : st.evictableAt c = false) :
      InsGoes st (.evict cnt c) (.inner cnt (st.father c))
  | room (room : noFileRoom st = false) : InsGoes st .full .commit

/-- The steps of `insertCreateFile`: moves in its loops, and an eviction. -/
inductive InsStep (rq : Request) (x : Node) (rm : Bytes) (sh : Shared) : InsPc → Effect → Prop
  | go {p p' : InsPc} (goes : InsGoes sh.storage p p') :
      InsStep rq x rm sh p ⟨some (.insert x rm p'), sh, none⟩
  | evict {cnt : Nat} {c : NodeId} {r : Removal}
      (hr : removeFile c rm sh.storage sh.statistics.cntFileRemoved = some (some r)) :
      InsStep rq x rm sh (.evict cnt c)
        ⟨some (.insert x r.rmPath (.inner cnt r.currentFile)), sh.removed r, some (.evicted rq c)⟩
  | fail (lack : noFileRoom sh.storage = true) :
      InsStep rq x rm sh .full ⟨some (.reply .ko), sh, none⟩
  | commit {st : InfoStorage} (hst : insertSection sh.storage x = some st) :
      InsStep rq x rm sh .commit
        ⟨some (.reply (.okRemoved rm)), sh.setStorage st, some (.opened rq sh.storage.brk)⟩

/-- There are no others. -/
theorem insertStep_cases {x : Node} {rm : Bytes} {p : InsPc}
    (h : insertStep rq x rm p sh = some e) : InsStep rq x rm sh p e := by
  unfold insertStep goto at h
  cases p with
  | test =>
    simp only at h
    split at h
    · next hr => cases h; exact .go (.lacks hr)
    · next hr => cases h; exact .go (.free (by simpa using hr))
  | outer cnt =>
    simp only at h
    split at h
    · next hc =>
      cases h
      exact .go (.again (Bool.and_eq_true_iff.mp hc).1)
    · next hc =>
      cases h
      refine .go (.stop fun hr => ?_)
      simpa [hr] using hc
  | last cnt =>
    cases h
    exact .go .last
  | inner cnt cur =>
    cases cur with
    | none =>
      cases h
      exact .go .scanned
    | some c =>
      simp only at h
      split at h
      · next hr => cases h; exact .go (.next hr)
      · next hr => cases h; exact .go (.enough (by simpa using hr))
  | evict cnt c =>
    simp only at h
    split at h
    · cases h
    · next hr => cases h; exact .go (.refused (refused_removeFile hr))
    · next hr => cases h; exact .evict hr
  | full =>
    simp only at h
    split at h
    · next hr => cases h; exact .fail hr
    · next hr => cases h; exact .go (.room (by simpa using hr))
  | commit =>
    simp only at h
    split at h
    · cases h
    · next hst => cases h; exact .commit hst

/-- The scan needs a stored node under its cursor, and nothing else. -/
theorem insertStep_defined {x : Node} {rm : Bytes} {p : InsPc} {l : List NodeId}
    (hrep : Rep sh.storage l) (hcur : ∀ cnt c, p = .evict cnt c → sh.storage.Stored c) :
    ∃ e, insertStep rq x rm p sh = some e := by
  unfold insertStep goto
  cases p with
  | test => simp only; split <;> exact ⟨_, rfl⟩
  | outer cnt => simp only; split <;> exact ⟨_, rfl⟩
  | last cnt => exact ⟨_, rfl⟩
  | inner cnt cur =>
    cases cur with
    | none => exact ⟨_, rfl⟩
    | some c => simp only; split <;> exact ⟨_, rfl⟩
  | evict cnt c =>
    rcases hrep.removeFile_defined (hcur cnt c rfl) rm sh.statistics.cntFileRemoved with
      ⟨-, hr⟩ | ⟨-, r, hr⟩ <;> (simp only [hr]; exact ⟨_, rfl⟩)
  | full => simp only; split <;> exact ⟨_, rfl⟩
  | commit =>
    obtain ⟨st', hst⟩ := hrep.insertSection_defined x
    simp only [hst]
    exact ⟨_, rfl⟩

/-! ## UpdateFile -/

/-- The steps that go on in the same storage. `cf` is `current_file`. -/
inductive UpdGoes (rq : Request) (n : NodeId) (content : Bytes) (cf : Option Ptr)
    (st : InfoStorage) : UpdPc → UpdPc → Prop
  | large {node : Node} (large : st.ramTot - content.length < 0) (hn : st.heap n = some node)
      (fresh : node.modified = -1) : UpdGoes rq n content cf st .test .oversize
  | small (small : ¬ st.ramTot - content.length < 0) : UpdGoes rq n content cf st .test .ram
  | written {node : Node} (hn : st.heap n = some node) (written : node.modified ≠ -1) :
      UpdGoes rq n content cf st .test .ram
  | lacks (lack : noRamRoom st content.length = true) : UpdGoes rq n content cf st .ram (.outer 0)
  | fits (room : noRamRoom st content.length = false) : UpdGoes rq n content cf st .ram (.owner 0)
  | again {cnt : Nat} (lack : noRamRoom st content.length = true) :
      UpdGoes rq n content cf st (.outer cnt) (.last cnt)
  | stop {cnt : Nat} (done : noRamRoom st content.length = true → TIMER ≤ cnt) :
      UpdGoes rq n content cf st (.outer cnt) .full
  | last {cnt : Nat} : UpdGoes rq n content cf st (.last cnt) (.inner cnt st.last)
  | scanned {cnt : Nat} : UpdGoes rq n content cf st (.inner cnt none) (.outer (cnt + 1))
  | next {cnt : Nat} {m : NodeId} (lack : noRamRoom st content.length = true) :
      UpdGoes rq n content cf st (.inner cnt (some m)) (.evict cnt m)
  | enough {cnt : Nat} {m : NodeId} (room : noRamRoom st content.length = false) :
      UpdGoes rq n content cf st (.inner cnt (some m)) (.outer (cnt + 1))
  | refused {cnt : Nat} {m : NodeId} {cur : Ptr} (kept : st.evictableAt m = false)
      (set : cf = some cur) : UpdGoes rq n content cf st (.evict cnt m) (.inner cnt cur)
  | room (room : noRamRoom st content.length = false) : UpdGoes rq n content cf st .full (.owner 0)
  | wait {cnt : Nat} {node : Node} (hn : st.heap n = some node)
      (other : (rq.fd : Int) ≠ node.fdClientId) :
      UpdGoes rq n content cf st (.owner cnt) (.owner (cnt + 1))
  | owned {cnt : Nat} {node : Node} (hn : st.heap n = some node)
      (done : (rq.fd : Int) ≠ node.fdClientId → TIMER ≤ cnt) :
      UpdGoes rq n content cf st (.owner cnt) .commit

/-- The steps of `updateFile`: moves, the deletion of a file that is too large, and an
eviction. -/
inductive UpdStep (rq : Request) (n : NodeId) (content rm : Bytes) (cf : Option Ptr)
    (sh : Shared) : UpdPc → Effect → Prop
  | go {p p' : UpdPc} (goes : UpdGoes rq n content cf sh.storage p p') :
      UpdStep rq n content rm cf sh p ⟨some (.update n content rm cf p'), sh, none⟩
  | delete {r : Removal}
      (hr : oversizeSection sh.storage n rm sh.statistics.cntFileRemoved = some r) :
      UpdStep rq n content rm cf sh .oversize
        ⟨some (.appStats .ko), sh.removed r, some (.deleted rq n)⟩
  | evict {cnt : Nat} {m : NodeId} {r : Removal}
      (hr : removeFile m rm sh.storage sh.statistics.cntFileRemoved = some (some r)) :
      UpdStep rq n content rm cf sh (.evict cnt m)
        ⟨some (.update n content r.rmPath (some r.currentFile) (.inner cnt r.currentFile)),
          sh.removed r, some (.evicted rq m)⟩
  | fail (lack : noRamRoom sh.storage content.length = true) :
      UpdStep rq n content rm cf sh .full ⟨some (.appStats .ko), sh, none⟩
  | deny (hst : updateSection sh.storage n rq.fd content = some none) :
      UpdStep rq n content rm cf sh .commit ⟨some (.appStats .ko), sh, none⟩
  | commit {st : InfoStorage} (hst : updateSection sh.storage n rq.fd content = some (some st)) :
      UpdStep rq n content rm cf sh .commit
        ⟨some (.appStats (.okRemoved rm)), sh.setStorage st, some (.appended rq n content)⟩

theorem updateStep_cases {content rm : Bytes} {cf : Option Ptr} {p : UpdPc}
    (h : updateStep rq n content rm cf p sh = some e) : UpdStep rq n content rm cf sh p e := by
  unfold updateStep goto at h
  cases p with
  | test =>
    simp only at h
    split at h
    · next hl =>
      split at h
      · cases h
      · next hn =>
        split at h
        · next hm => cases h; exact .go (.large hl hn hm)
        · next hm => cases h; exact .go (.written hn hm)
    · next hl => cases h; exact .go (.small hl)
  | oversize =>
    simp only at h
    split at h
    · cases h
    · next hr => cases h; exact .delete hr
  | ram =>
    simp only at h
    split at h
    · next hr => cases h; exact .go (.lacks hr)
    · next hr => cases h; exact .go (.fits (by simpa using hr))
  | outer cnt =>
    simp only at h
    split at h
    · next hc =>
      cases h
      exact .go (.again (Bool.and_eq_true_iff.mp hc).1)
    · next hc =>
      cases h
      refine .go (.stop fun hr => ?_)
      simpa [hr] using hc
  | last cnt =>
    cases h
    exact .go .last
  | inner cnt cur =>
    cases cur with
    | none =>
      cases h
      exact .go .scanned
    | some m =>
      simp only at h
      split at h
      · next hr => cases h; exact .go (.next hr)
      · next hr => cases h; exact .go (.enough (by simpa using hr))
  | evict cnt m =>
    simp only at h
    split at h
    · cases h
    · next hr =>
      split at h
      · cases h
      · cases h
        exact .go (.refused (refused_removeFile hr) rfl)
    · next hr => cases h; exact .evict hr
  | full =>
    simp only at h
    split at h
    · next hr => cases h; exact .fail hr
    · next hr => cases h; exact .go (.room (by simpa using hr))
  | owner cnt =>
    simp only at h
    split at h
    · cases h
    · next hn =>
      split at h
      · next hc => cases h; exact .go (.wait hn hc.1)
      · next hc =>
        cases h
        refine .go (.owned hn fun hne => ?_)
        exact Nat.not_lt.mp fun hlt => hc ⟨hne, hlt⟩
  | commit =>
    simp only at h
    split at h
    · cases h
    · next hst => cases h; exact .deny hst
    · next hst => cases h; exact .commit hst

/-- A refused file stops the call where `current_file` has not been set. -/
theorem updateStep_defined {content rm : Bytes} {cf : Option Ptr} {p : UpdPc} {l : List NodeId}
    (hrep : Rep sh.storage l) (hn : sh.storage.Stored n)
    (hcur : ∀ cnt m, p = .evict cnt m → sh.storage.Stored m ∧
      (sh.storage.evictableAt m = false → cf ≠ none)) :
    ∃ e, updateStep rq n content rm cf p sh = some e := by
  obtain ⟨node, hnode⟩ := heap_of_stored hn
  unfold updateStep goto
  cases p with
  | test =>
    simp only [hnode]
    split
    · split <;> exact ⟨_, rfl⟩
    · exact ⟨_, rfl⟩
  | oversize =>
    obtain ⟨r, hr⟩ := hrep.oversizeSection_defined hn rm sh.statistics.cntFileRemoved
    simp only [hr]
    exact ⟨_, rfl⟩
  | ram => simp only; split <;> exact ⟨_, rfl⟩
  | outer cnt => simp only; split <;> exact ⟨_, rfl⟩
  | last cnt => exact ⟨_, rfl⟩
  | inner cnt cur =>
    cases cur with
    | none => exact ⟨_, rfl⟩
    | some m => simp only; split <;> exact ⟨_, rfl⟩
  | evict cnt m =>
    obtain ⟨hm, hset⟩ := hcur cnt m rfl
    rcases hrep.removeFile_defined hm rm sh.statistics.cntFileRemoved with
      ⟨he, hr⟩ | ⟨-, r, hr⟩
    · obtain ⟨cur, rfl⟩ := Option.ne_none_iff_exists'.mp (hset he)
      simp only [hr]
      exact ⟨_, rfl⟩
    · simp only [hr]
      exact ⟨_, rfl⟩
  | full => simp only; split <;> exact ⟨_, rfl⟩
  | owner cnt =>
    simp only [hnode]
    split <;> exact ⟨_, rfl⟩
  | commit =>
    by_cases ho : (rq.fd : Int) ≠ node.fdClientId
    · simp only [updateSection, hnode, Option.bind_eq_bind, Option.bind_some, if_pos ho]
      exact ⟨_, rfl⟩
    · simp only [updateSection, hnode, Option.bind_eq_bind, Option.bind_some, if_neg ho]
      exact ⟨_, rfl⟩

/-! ## The handlers -/

/-- The steps outside the two functions that go on in the same storage. -/
inductive Goes (rq : Request) (st : InfoStorage) : Pc → Pc → Prop
  | openKo {p flag : Bytes} {o : Option NodeId} (hs : searchFileNode p st = some o) :
      Goes rq st (.openSearch p flag) (.reply .ko)
  | openNew {p flag : Bytes} (hs : searchFileNode p st = some none) :
      Goes rq st (.openSearch p flag) (.insert (createFileNode p rq.fd) [] .test)
  | openOld {p flag : Bytes} {n : NodeId} (hs : searchFileNode p st = some (some n)) :
      Goes rq st (.openSearch p flag) (.openPoll n 0)
  | openWait {n : NodeId} {cnt : Nat} : Goes rq st (.openPoll n cnt) (.openPoll n (cnt + 1))
  | openGiveUp {n : NodeId} {cnt : Nat} : Goes rq st (.openPoll n cnt) (.reply .ko)
  | readKo {p : Bytes} (hs : searchFileNode p st = some none) :
      Goes rq st (.readSearch p) (.reply .ko)
  | readFound {p : Bytes} {n : NodeId} (hs : searchFileNode p st = some (some n)) :
      Goes rq st (.readSearch p) (.readPoll n 0)
  | readWait {n : NodeId} {cnt : Nat} : Goes rq st (.readPoll n cnt) (.readPoll n (cnt + 1))
  | readGo {n : NodeId} {cnt : Nat} : Goes rq st (.readPoll n cnt) (.readLocked n)
  | readDeny {n : NodeId} : Goes rq st (.readLocked n) (.reply .ko)
  | nStart {n k : Int} : Goes rq st (.readNStart n) (.readNHead k)
  | nHead {k : Int} : Goes rq st (.readNHead k) (.readNLoop k k st.head)
  | nSkip {check k : Int} {n : NodeId} {node : Node} (hn : st.heap n = some node)
      (hm : node.modified = -1) :
      Goes rq st (.readNLoop check k (some n)) (.readNLoop check k node.son)
  | nEnd {check k : Int} {cur : Ptr} :
      Goes rq st (.readNLoop check k cur) (.reply (if k = check then .ko else .ok))
  | appKo {p content : Bytes} (hs : searchFileNode p st = some none) :
      Goes rq st (.appSearch p content) (.appStats .ko)
  | appFound {p content : Bytes} {n : NodeId} (hs : searchFileNode p st = some (some n)) :
      Goes rq st (.appSearch p content) (.appPoll n 0 content)
  | appWait {n : NodeId} {cnt : Nat} {content : Bytes} :
      Goes rq st (.appPoll n cnt content) (.appPoll n (cnt + 1) content)
  | appGo {n : NodeId} {cnt : Nat} {content : Bytes} :
      Goes rq st (.appPoll n cnt content) (.appLocked n content)
  | appDeny {n : NodeId} {content : Bytes} : Goes rq st (.appLocked n content) (.appStats .ko)
  | appStart {n : NodeId} {content : Bytes} {node : Node} (hn : st.heap n = some node)
      (ho : node.fdClientId = rq.fd) :
      Goes rq st (.appLocked n content) (.update n content [] none .test)
  | closeKo {p : Bytes} (hs : searchFileNode p st = some none) :
      Goes rq st (.closeSearch p) (.reply .ko)
  | closeFound {p : Bytes} {n : NodeId} (hs : searchFileNode p st = some (some n)) :
      Goes rq st (.closeSearch p) (.closePoll n 0)
  | closeWait {n : NodeId} {cnt : Nat} : Goes rq st (.closePoll n cnt) (.closePoll n (cnt + 1))
  | closeGiveUp {n : NodeId} {cnt : Nat} : Goes rq st (.closePoll n cnt) (.reply .ko)

/-- The steps of a worker. -/
inductive WStep (rq : Request) (sh : Shared) : Pc → Effect → Prop
  | go {pc pc' : Pc} (goes : Goes rq sh.storage pc pc') : WStep rq sh pc ⟨some pc', sh, none⟩
  | insert {x : Node} {rm : Bytes} {p : InsPc} {e : Effect}
      (he : insertStep rq x rm p sh = some e) : WStep rq sh (.insert x rm p) e
  | update {n : NodeId} {content rm : Bytes} {cf : Option Ptr} {p : UpdPc} {e : Effect}
      (he : updateStep rq n content rm cf p sh = some e) :
      WStep rq sh (.update n content rm cf p) e
  | openTake {n : NodeId} {cnt : Nat} {st : InfoStorage}
      (hst : openSection sh.storage n rq.fd = some (some st)) :
      WStep rq sh (.openPoll n cnt)
        ⟨some (.reply .ok), sh.setStorage st, some (.opened rq n)⟩
  | closeTake {n : NodeId} {cnt : Nat} {st : InfoStorage}
      (hst : closeSection sh.storage n rq.fd = some (some st)) :
      WStep rq sh (.closePoll n cnt)
        ⟨some (.reply .ok), sh.setStorage st, some (.closed rq n)⟩
  | readSend {n : NodeId} {node : Node} (hn : sh.storage.heap n = some node)
      (ho : node.fdClientId = rq.fd) :
      WStep rq sh (.readLocked n)
        ⟨none, sh, some (.frame rq n node.pathname node.fileSz node.contentFile)⟩
  | nSend {check k : Int} {n : NodeId} {node : Node} {st : InfoStorage} (hk : 0 < k)
      (hst : readNSection sh.storage n = some (node, st)) (hm : node.modified ≠ -1) :
      WStep rq sh (.readNLoop check k (some n))
        ⟨some (.readNLoop check (k - 1) node.son), sh.setStorage st,
          some (.frame rq n node.pathname node.fileSz node.contentFile)⟩
  | stats {a : Answer} : WStep rq sh (.appStats a) ⟨some (.reply a), sh.sample, none⟩
  | closeConn {sockname : Bytes} {a : Answer} :
      WStep rq sh (.closeConn sockname) ⟨none, sh, some (.disconnected rq a)⟩
  | reply {a : Answer} : WStep rq sh (.reply a) ⟨none, sh, some (.answered rq a)⟩

/-- A step that is defined is one of them. -/
theorem wstep_cases {pc : Pc} (h : wstep rq pc sh = some e) : WStep rq sh pc e := by
  cases pc with
  | insert x rm p => exact .insert h
  | update n content rm cf p => exact .update h
  | openSearch p flag =>
    simp only [wstep, goto] at h
    split at h
    · cases h
    · next o ho =>
      split at h
      · cases h; exact .go (.openKo ho)
      · cases o with
        | none => cases h; exact .go (.openNew ho)
        | some n => cases h; exact .go (.openOld ho)
  | openPoll n cnt =>
    simp only [wstep, goto] at h
    split at h
    · cases h
    · next hst => cases h; exact .openTake hst
    · split at h
      · cases h; exact .go .openWait
      · cases h; exact .go .openGiveUp
  | readSearch p =>
    simp only [wstep, goto] at h
    split at h
    · cases h
    · next ho => cases h; exact .go (.readKo ho)
    · next ho => cases h; exact .go (.readFound ho)
  | readPoll n cnt =>
    simp only [wstep, goto] at h
    split at h
    · cases h
    · split at h
      · cases h; exact .go .readWait
      · cases h; exact .go .readGo
  | readLocked n =>
    simp only [wstep, goto] at h
    split at h
    · cases h
    · next hn =>
      split at h
      · cases h; exact .go .readDeny
      · next ho => cases h; exact .readSend hn (not_not.mp ho)
  | readNStart k => cases h; exact .go .nStart
  | readNHead k => cases h; exact .go .nHead
  | readNLoop check k cur =>
    simp only [wstep, goto] at h
    split at h
    · cases h; exact .go .nEnd
    · split at h
      · next hk =>
        split at h
        · cases h
        · next hst =>
          split at h
          · next hm => cases h; exact .go (.nSkip (store_readNSection hst).1 hm)
          · next hm => cases h; exact .nSend hk hst hm
      · cases h; exact .go .nEnd
  | appSearch p content =>
    simp only [wstep, goto] at h
    split at h
    · cases h
    · next ho => cases h; exact .go (.appKo ho)
    · next ho => cases h; exact .go (.appFound ho)
  | appPoll n cnt content =>
    simp only [wstep, goto] at h
    split at h
    · cases h
    · split at h
      · cases h; exact .go .appWait
      · cases h; exact .go .appGo
  | appLocked n content =>
    simp only [wstep, goto] at h
    split at h
    · cases h
    · next hn =>
      split at h
      · cases h; exact .go .appDeny
      · next ho => cases h; exact .go (.appStart hn (not_not.mp ho))
  | appStats a => cases h; exact .stats
  | closeSearch p =>
    simp only [wstep, goto] at h
    split at h
    · cases h
    · next ho => cases h; exact .go (.closeKo ho)
    · next ho => cases h; exact .go (.closeFound ho)
  | closePoll n cnt =>
    simp only [wstep, goto] at h
    split at h
    · cases h
    · next hst => cases h; exact .closeTake hst
    · split at h
      · cases h; exact .go .closeWait
      · cases h; exact .go .closeGiveUp
  | closeConn sockname => cases h; exact .closeConn
  | reply a => cases h; exact .reply

end FileStorage.Worker

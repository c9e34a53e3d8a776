import FileStorage.Service.Abstraction
import FileStorage.Service.Ends

/-!
# The handlers serve the cache

For each kind of request: from a memory that represents the files `l`, the
handler that works alone comes to an end, sends what the service sends, and
leaves a memory that represents the files the service leaves
(`Serves`). `Clean` collects what this needs of the memory, request by request:

* no longer name hides the requested one;
* a file that is evicted for a new one, or deletes itself, is at an end of the
  list;
* the bytes of an APPEND fit into what the scan can reach;
* for "all" files, READ N finds as many free slots as files.

These are the conditions of the single functions. They fail for reasons that
the theorems about those functions spell out, and under them nothing else goes
wrong.
-/

namespace FileStorage.Service

open FileStorage.Lib FileStorage.Storage FileStorage.Worker FileStorage.Worker.Sequential
open FileStorage.Worker.Alone FileStorage.Worker.Lookup FileStorage.Worker.Insertion
open FileStorage.Worker.Scan FileStorage.Worker.Room FileStorage.Worker.ReadN

/-- The conditions on the memory under which a request is served as intended. -/
def Clean (st : InfoStorage) (fd : Nat) : Op → Prop
  | .openFile p flag => Unshadowed st p ∧
      (mayCreate flag = true → (∀ n, ¬ Named st p n) → insertSound st = true)
  | .readFile p => Unshadowed st p
  | .readNFiles n => n = 0 → ((writtenFiles st).length : Int) ≤ st.nfileDispo
  | .appendToFile p content => Unshadowed st p ∧ ∀ n, Named st p n → st.store.Owned n fd →
      (oversize st n content = true → st.inner n = false) ∧
      (oversize st n content = false → (content.length : Int) ≤ scope st)
  | .closeFile p => Unshadowed st p
  | .closeConnection _ => True

/-- From `pc` on the worker comes to an end, sends `outs` and leaves `l`. -/
def Serves (lim : Limits) (rq : Request) (pc : Pc) (sh : Shared) (l : List Entry)
    (outs : List Output) : Prop :=
  ∃ sh', Ends rq pc sh sh' outs ∧ Represents sh' lim l

section

variable {lim : Limits} {rq : Request} {pc pc' out : Pc} {sh sh' : Shared} {l l' : List Entry}
variable {outs : List Output} {ent : NodeId → Entry} {n : NodeId} {p flag content : Bytes}
variable {st' : InfoStorage} {g : Entry → Entry}

/-- A move without an effect in front. -/
theorem Serves.goto (hw : wstep rq pc sh = Worker.goto pc' sh) (rest : Serves lim rq pc' sh l outs) :
    Serves lim rq pc sh l outs := by
  obtain ⟨sh', hends, hrep⟩ := rest
  exact ⟨sh', .goto hw hends, hrep⟩

/-- A request that changes nothing and is answered. -/
theorem serves_reply (h : Represents sh lim l) (a : Answer) :
    Serves lim rq (.reply a) sh l [.answer a] :=
  ⟨sh, ends_reply a, h⟩

/-- The answer ends the request. -/
theorem serves_appStats (h : Represents sh lim l) (a : Answer) :
    Serves lim rq (.appStats a) sh l [.answer a] :=
  ⟨sh.sample, ends_appStats a, h.wf, h.ram, h.slots, h.sockname, h.shows⟩

/-- A loop that only waits, with a bound. -/
theorem Serves.poll (poll : Nat → Pc) (bound : Nat)
    (hw : ∀ cnt, wstep rq (poll cnt) sh =
      Worker.goto (if cnt < bound then poll (cnt + 1) else out) sh)
    (rest : Serves lim rq out sh l outs) : Serves lim rq (poll 0) sh l outs := by
  obtain ⟨sh', hends, hrep⟩ := rest
  exact ⟨sh', .poll hw hends 0, hrep⟩

/-! ## A change of owner -/

theorem nodes_sameLinks {st : InfoStorage} (h : SameLinks st st') : st'.nodes = st.nodes := by
  unfold InfoStorage.nodes
  rw [h.son, h.brk, h.head]

/-- A new owner in a node is a new owner of its file. -/
theorem represents_setFd {fd : Int} (h : Represents sh lim l)
    (hs : Shows sh.storage.nodes sh.storage.file ent l) (hb : Bounded lim l)
    (hn : n ∈ sh.storage.nodes) (hlinks : SameLinks sh.storage st')
    (hst : st'.store = sh.storage.store.setFd n fd)
    (hg : (g (ent n)).file = { (ent n).file with fdClientId := fd }) :
    Represents (sh.setStorage st') lim (edit Entry.pathname [(ent n).pathname] g l) := by
  have hfile := hs.file n hn
  refine ⟨⟨setFd_seqOk h.wf.toSeqOk hlinks hfile hst, ?_⟩,
    (congrArg Store.ramTot hst).trans h.ram, (congrArg Store.nfileTot hst).trans h.slots,
    h.sockname, fun m => if m ∈ [n] then g (ent m) else ent m, ?_⟩
  · show st'.store.Sized
    rw [hst]
    exact h.wf.sized.setFd
  · show Shows st'.nodes st'.file _ _
    rw [nodes_sameLinks hlinks]
    refine hs.edit (V := [n]) hb.names (fun m hm => ?_) (fun m hm => ?_)
    · rwa [List.mem_singleton.mp hm]
    · show st'.store.files m = _
      rw [hst]
      by_cases hm : m ∈ [n]
      · rw [if_pos hm, List.mem_singleton.mp hm, hg]
        exact Store.files_setFd_self hfile
      · rw [if_neg hm]
        exact Store.files_setFd_ne fun he => hm (List.mem_singleton.mpr he)

/-- The record of a node, by its file. -/
theorem node_of_shows (hs : Shows sh.storage.nodes sh.storage.file ent l)
    (hn : n ∈ sh.storage.nodes) :
    ∃ node, sh.storage.heap n = some node ∧ node.toFile = (ent n).file :=
  heap_of_file (hs.file n hn)

/-! ## OPEN -/

/-- The new file is in front, the evicted ones are gone. -/
theorem represents_entered {fd : Nat} {V : List NodeId} (h : Represents sh lim l)
    (hs : Shows sh.storage.nodes sh.storage.file ent l) (hb : Bounded lim l)
    (hV : ∀ m ∈ V, m ∈ sh.storage.nodes) (hwf : WellFormed sh'.storage)
    (he : Entered (createFileNode p fd) V sh sh') :
    Represents sh' lim
      (Entry.create p fd :: without Entry.pathname (V.map fun m => (ent m).pathname) l) := by
  refine ⟨hwf, he.ramTot.trans h.ram, he.nfileTot.trans h.slots, he.sockname.trans h.sockname,
    Function.update ent sh.storage.brk (Entry.create p fd), ?_⟩
  have hfresh : ∀ m ∈ sh.storage.nodes, m ≠ sh.storage.brk := by
    intro m hm
    exact Nat.ne_of_lt (h.wf.fresh m _ (hs.file m hm))
  rw [he.nodes]
  refine Shows.cons ((hs.without hb.names hV).congr fun m hm => ?_) (fun hm => ?_) ?_
  · obtain ⟨hm, hnot⟩ := List.mem_filter.mp hm
    rw [he.file, if_neg (hfresh m hm), if_neg (by simpa using hnot)]
  · exact hfresh _ (List.mem_filter.mp hm).1 rfl
  · rw [he.file, if_pos rfl]
    rfl

/-- `insertCreateFile` keeps the storage well formed, when the file that makes
room is at an end. -/
theorem wellFormed_insertion {fd : Nat} (hwf : WellFormed sh.storage)
    (hsound : insertSound sh.storage = true)
    (h : Leads (aloneStep rq) (.insert (createFileNode p fd) [] .test, sh) (pc', sh')) :
    WellFormed sh'.storage := by
  have hall : WellFormed sh'.storage ∧ (returns pc' = true ∨ ∃ rm q,
      pc' = .insert (createFileNode p fd) rm q ∧ InsOk sh'.storage q) := by
    refine Leads.invariant (fun t : Pc × Shared => WellFormed t.2.storage ∧ (returns t.1 = true ∨
      ∃ rm q, t.1 = .insert (createFileNode p fd) rm q ∧ InsOk t.2.storage q)) ?_ ?_ h
    · exact ⟨hwf, .inr ⟨[], .test, rfl, hsound⟩⟩
    intro t u hi ht
    obtain ⟨pc₁, sh₁⟩ := t
    obtain ⟨pc₂, sh₂⟩ := u
    obtain ⟨hret, ev, hw⟩ := aloneStep_cases ht
    rcases hi.2 with hyes | ⟨rm, q, rfl, hq⟩
    · rw [hret] at hyes
      cases hyes
    · obtain ⟨e, he, hok, hpc⟩ :=
        @insert_step (createFileNode p fd) rq rm _ _ hi.1.toSeqOk rfl rfl rfl hq
      obtain rfl := Option.some.inj (he.symm.trans hw)
      have hsized : sh₂.storage.store.Sized := by
        refine sized_trans (wstep_trans hw) hi.1.sized fun x hx => ?_
        cases hx
        rfl
      refine ⟨⟨hok, hsized⟩, ?_⟩
      rcases hpc with ⟨a, ha⟩ | ⟨rm', q', hq', hins⟩
      · rw [Option.some.inj ha]
        exact .inl rfl
      · exact .inr ⟨rm', q', Option.some.inj hq', hins⟩
  exact hall.1

/-- A new file takes a free slot, or that of the oldest file that may go. -/
theorem serves_create {fd : Nat} (h : Represents sh lim l) (hb : Bounded lim l)
    (hsound : insertSound sh.storage = true) :
    Serves lim rq (.insert (createFileNode p fd) [] .test) sh (createFile lim fd p l).1
      [.answer (createFile lim fd p l).2] := by
  obtain ⟨ent, hs⟩ := h.shows
  have hok := h.wf.toSeqOk
  have hfree := nfileDispo_eq hs hok
  rw [h.slots] at hfree
  unfold createFile
  by_cases hslot : (l.length : Int) < lim.slots
  · rw [if_pos hslot]
    obtain ⟨sh', hrun, he⟩ :=
      @insertion_free rq (createFileNode p fd) [] sh hok (by omega) rfl rfl
    have hrep := represents_entered h hs hb (by simp) (wellFormed_insertion h.wf hsound hrun) he
    rw [List.map_nil, without_nil] at hrep
    exact ⟨sh', .call rfl hrun (ends_reply _), hrep⟩
  · rw [if_neg hslot]
    have hzero : sh.storage.nfileDispo = 0 := by
      have hle := hb.length
      omega
    have hhead : (removables l).head? =
        ((oldestFirst sh.storage).find? sh.storage.evictableAt).map ent := by
      rw [removables_eq hs, List.head?_map]
      unfold evictables
      rw [List.head?_filter]
    rw [hhead]
    cases hfind : (oldestFirst sh.storage).find? sh.storage.evictableAt with
    | none =>
      have hnone : ∀ n, sh.storage.Stored n → sh.storage.evictableAt n = false := by
        intro n hn
        have hno := List.find?_eq_none.mp hfind n ((mem_oldestFirst hok).mpr hn)
        simpa using hno
      have hrun := @insertion_full rq (createFileNode p fd) [] sh hok hzero hnone
      exact ⟨sh, .call rfl hrun (ends_reply _), h⟩
    | some n =>
      have hinner : sh.storage.inner n = false := by
        unfold insertSound at hsound
        rw [(noFileRoom_iff hok).mpr hzero, evictee_eq_oldest hok, hfind] at hsound
        simpa using hsound
      have hmem : n ∈ sh.storage.nodes := List.mem_reverse.mp (List.mem_of_find?_eq_some hfind)
      obtain ⟨sh', hrun, he⟩ :=
        @insertion_evicts rq (createFileNode p fd) [] sh n hok hzero hfind hinner rfl rfl
      have hrep := represents_entered h hs hb (by simpa using hmem)
        (wellFormed_insertion h.wf hsound hrun) he
      have hname : [] ++ [44] ++ Alone.pathname sh.storage n = joined 44 [(ent n).pathname] := by
        unfold Alone.pathname
        rw [hs.file n hmem]
        simp [joined, Entry.file]
      rw [hname] at hrun
      exact ⟨sh', .call rfl hrun (ends_reply _), hrep⟩

/-- What the search of OPEN leads to. -/
theorem openSearch_step {o : Option NodeId} (hfind : searchFileNode p sh.storage = some o) :
    wstep rq (.openSearch p flag) sh = Worker.goto
      (match o with
        | some n => if mayOpen flag then .openPoll n 0 else .reply .ko
        | none =>
          if mayCreate flag then .insert (createFileNode p rq.fd) [] .test else .reply .ko) sh := by
  simp only [wstep, hfind]
  unfold mayOpen mayCreate
  cases o with
  | some n => cases strncmpEq flag [49] 1 <;> rfl
  | none => cases strncmpEq flag [48] 1 <;> rfl

/-- A file that is open is polled in vain. -/
theorem serves_openPoll (h : Represents sh lim l) (hb : Bounded lim l)
    (hs : Shows sh.storage.nodes sh.storage.file ent l) (hn : n ∈ sh.storage.nodes) :
    Serves lim rq (.openPoll n 0) sh
      (if (ent n).owner = none then
        edit Entry.pathname [(ent n).pathname] (Entry.openBy rq.fd) l else l)
      [.answer (if (ent n).owner = none then .ok else .ko)] := by
  obtain ⟨node, hnode, hfile⟩ := node_of_shows hs hn
  have hfd : node.fdClientId = (ent n).file.fdClientId := congrArg File.fdClientId hfile
  by_cases howner : (ent n).owner = none
  · rw [if_pos howner, if_pos howner]
    have hopen : openSection sh.storage n rq.fd = some (some (sh.storage.modify n
        fun x => { x with fdClientId := rq.fd })) := by
      unfold openSection
      rw [hnode]
      exact if_pos (hfd.trans ((ent n).closed_iff.mpr howner))
    have hw : wstep rq (.openPoll n 0) sh = some ⟨some (.reply .ok), sh.setStorage
        (sh.storage.modify n fun x => { x with fdClientId := rq.fd }), some (.opened rq n)⟩ := by
      simp only [wstep, hopen]
    have hrep := represents_setFd h hs hb hn (sameLinks_openSection hopen) store_setFd
      (g := Entry.openBy rq.fd) rfl
    exact ⟨_, .silent hw rfl (ends_reply _), hrep⟩
  · rw [if_neg howner, if_neg howner]
    have hopen : openSection sh.storage n rq.fd = some none := by
      unfold openSection
      rw [hnode]
      exact if_neg fun he => howner ((ent n).closed_iff.mp (hfd.symm.trans he))
    refine Serves.poll (fun cnt => .openPoll n cnt) (TIMER - 1) (fun cnt => ?_) (serves_reply h .ko)
    simp only [wstep, hopen]
    by_cases hlt : cnt + 1 < TIMER
    · rw [if_pos hlt, if_pos (by omega)]
    · rw [if_neg hlt, if_neg (by omega)]

/-- The handler of OPEN does what the cache does. -/
theorem serves_openFile (h : Represents sh lim l) (hb : Bounded lim l)
    (hclean : Clean sh.storage rq.fd (.openFile p flag)) :
    Serves lim rq (.openSearch p flag) sh (openFile lim rq.fd p flag l).1
      [.answer (openFile lim rq.fd p flag l).2] := by
  obtain ⟨hu, hins⟩ := hclean
  obtain ⟨ent, hs⟩ := h.shows
  unfold openFile
  rcases search_shows hs h.wf.toSeqOk hb.names hu with ⟨n, hn, hp, hfind, hlook⟩ | ⟨hfind, hlook⟩
  · rw [hlook]
    refine .goto (openSearch_step hfind) ?_
    dsimp only
    by_cases hflag : mayOpen flag = true
    · rw [if_pos hflag]
      have hpoll := @serves_openPoll lim rq sh l ent n h hb hs hn
      rw [hp] at hpoll
      by_cases howner : (ent n).owner = none
      · rw [if_pos howner, if_pos howner] at hpoll
        rwa [if_pos ⟨hflag, howner⟩]
      · rw [if_neg howner, if_neg howner] at hpoll
        rwa [if_neg fun hboth => howner hboth.2]
    · rw [if_neg hflag, if_neg fun hboth => hflag hboth.1]
      exact serves_reply h .ko
  · rw [hlook]
    refine .goto (openSearch_step hfind) ?_
    dsimp only
    by_cases hflag : mayCreate flag = true
    · rw [if_pos hflag, if_neg (by rw [hflag]; decide)]
      refine serves_create h hb (hins hflag fun n hn => ?_)
      obtain ⟨hmem, hp⟩ := (named_iff_pathname hs h.wf.toSeqOk).mp hn
      refine ne_of_lookup_none hlook (ent n) ?_ hp
      rw [← hs.entries]
      exact List.mem_map.mpr ⟨n, hmem, rfl⟩
    · rw [if_neg hflag, if_pos (by simpa using hflag)]
      exact serves_reply h .ko

/-! ## READ and CLOSE -/

/-- So does the handler of READ FILE. -/
theorem serves_readFile (h : Represents sh lim l) (hb : Bounded lim l)
    (hu : Unshadowed sh.storage p) :
    Serves lim rq (.readSearch p) sh l [readFile rq.fd p l] := by
  obtain ⟨ent, hs⟩ := h.shows
  unfold readFile
  rcases search_shows hs h.wf.toSeqOk hb.names hu with ⟨n, hn, -, hfind, hlook⟩ | ⟨hfind, hlook⟩
  · have hsearch : wstep rq (.readSearch p) sh = Worker.goto (.readPoll n 0) sh := by
      simp only [wstep, hfind]
    obtain ⟨node, hnode, hfile⟩ := node_of_shows hs hn
    have hfd : node.fdClientId = (ent n).file.fdClientId := congrArg File.fdClientId hfile
    rw [hlook]
    refine .goto hsearch ?_
    dsimp only
    by_cases howner : (ent n).owner = some rq.fd
    · rw [if_pos howner]
      have hmine : node.fdClientId = rq.fd := hfd.trans (((ent n).owned_iff rq.fd).mpr howner)
      have hpoll : wstep rq (.readPoll n 0) sh = Worker.goto (.readLocked n) sh := by
        simp only [wstep, hnode]
        exact if_neg fun hne => hne.1 hmine
      have hlocked : wstep rq (.readLocked n) sh = some ⟨none, sh,
          some (.frame rq n node.pathname node.fileSz node.contentFile)⟩ := by
        simp only [wstep, hnode]
        exact if_neg fun hne => hne hmine
      have hsent : shown (some (.frame rq n node.pathname node.fileSz node.contentFile)) =
          [(ent n).output] := by
        show [Output.file node.toFile.pathname node.toFile.fileSz node.toFile.contentFile] = _
        rw [hfile]
        rfl
      refine ⟨sh, .goto hpoll ?_, h⟩
      rw [← hsent]
      exact .last hlocked
    · rw [if_neg howner]
      have hother : node.fdClientId ≠ rq.fd := fun he =>
        howner (((ent n).owned_iff rq.fd).mp (hfd.symm.trans he))
      have hlocked : wstep rq (.readLocked n) sh = Worker.goto (.reply .ko) sh := by
        simp only [wstep, hnode]
        exact if_pos hother
      refine Serves.poll (fun cnt => .readPoll n cnt) TIMER (fun cnt => ?_)
        (.goto hlocked (serves_reply h .ko))
      simp only [wstep, hnode]
      by_cases hlt : cnt < TIMER
      · rw [if_pos ⟨hother, hlt⟩, if_pos hlt]
      · rw [if_neg fun hboth => hlt hboth.2, if_neg hlt]
  · have hsearch : wstep rq (.readSearch p) sh = Worker.goto (.reply .ko) sh := by
      simp only [wstep, hfind]
    rw [hlook]
    exact .goto hsearch (serves_reply h .ko)

/-- So does the handler of CLOSE FILE. -/
theorem serves_closeFile (h : Represents sh lim l) (hb : Bounded lim l)
    (hu : Unshadowed sh.storage p) :
    Serves lim rq (.closeSearch p) sh (closeFile rq.fd p l).1 [.answer (closeFile rq.fd p l).2] := by
  obtain ⟨ent, hs⟩ := h.shows
  unfold closeFile
  rcases search_shows hs h.wf.toSeqOk hb.names hu with ⟨n, hn, hp, hfind, hlook⟩ | ⟨hfind, hlook⟩
  · have hsearch : wstep rq (.closeSearch p) sh = Worker.goto (.closePoll n 0) sh := by
      simp only [wstep, hfind]
    obtain ⟨node, hnode, hfile⟩ := node_of_shows hs hn
    have hfd : node.fdClientId = (ent n).file.fdClientId := congrArg File.fdClientId hfile
    rw [hlook]
    refine .goto hsearch ?_
    dsimp only
    by_cases howner : (ent n).owner = some rq.fd
    · rw [if_pos howner]
      have hclose : closeSection sh.storage n rq.fd = some (some (sh.storage.modify n
          fun x => { x with fdClientId := -1 })) := by
        unfold closeSection
        rw [hnode]
        exact if_pos (hfd.trans (((ent n).owned_iff rq.fd).mpr howner))
      have hw : wstep rq (.closePoll n 0) sh = some ⟨some (.reply .ok), sh.setStorage
          (sh.storage.modify n fun x => { x with fdClientId := -1 }), some (.closed rq n)⟩ := by
        simp only [wstep, hclose]
      have hrep := @represents_setFd lim sh l ent n _ Entry.close _ h hs hb hn
        (sameLinks_closeSection hclose) store_setFd rfl
      rw [hp] at hrep
      exact ⟨_, .silent hw rfl (ends_reply _), hrep⟩
    · rw [if_neg howner]
      have hclose : closeSection sh.storage n rq.fd = some none := by
        unfold closeSection
        rw [hnode]
        exact if_neg fun he => howner (((ent n).owned_iff rq.fd).mp (hfd.symm.trans he))
      refine Serves.poll (fun cnt => .closePoll n cnt) (TIMER - 1) (fun cnt => ?_)
        (serves_reply h .ko)
      simp only [wstep, hclose]
      by_cases hlt : cnt + 1 < TIMER
      · rw [if_pos hlt, if_pos (by omega)]
      · rw [if_neg hlt, if_neg (by omega)]
  · have hsearch : wstep rq (.closeSearch p) sh = Worker.goto (.reply .ko) sh := by
      simp only [wstep, hfind]
    rw [hlook]
    exact .goto hsearch (serves_reply h .ko)

end

end FileStorage.Service

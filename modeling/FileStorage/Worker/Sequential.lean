import FileStorage.Worker.Cases
import FileStorage.Storage.Rep
import FileStorage.Lib.Run

/-!
# The storage with one caller at a time

The functions of `includes/file_storage.c` and the changes of `fdClient_id`
that `threadF` makes, called one after another on one storage: a `call` starts
only when no other is in progress, and `work` executes the next section of
`insertCreateFile` or `UpdateFile` with the same step function that the workers
use. So `storage_ok` speaks about the state after every operation, and about
the states between their sections too.

Two calls can damage the storage, both in `removeFile` and its callers:

* the branch for a node in the middle rewrites the node that is freed instead
  of its neighbours. `insertCreateFile` gets there when the first file that may
  be evicted, from `last` to `head`, has neighbours on both sides, and
  `UpdateFile` when a file too large for the storage deletes itself;
* when the first file of its scan may not be evicted, `UpdateFile` goes on with
  the variable that a successful removal would have set.

`insertSound` and `updateSound` are the conditions, on the storage before the
call, that neither happens. `UpdateFile` may still hang, but it scans only from
`last` on, and takes only the last file off (`scanOk`).
-/

namespace FileStorage.Worker.Sequential

open FileStorage.Lib FileStorage.Storage FileStorage.Worker

/-- The operations. -/
inductive Call where
  | insertCreateFile (name : Bytes) (fd : Nat)
  | updateFile (n : NodeId) (fd : Nat) (content : Bytes)
  | openFile (n : NodeId) (fd : Nat)
  | closeFile (n : NodeId) (fd : Nat)
  | readFile (n : NodeId)
  deriving DecidableEq

inductive Move where
  | call (c : Call)
  | work
  deriving DecidableEq

/-- The storage, and the operation in progress. -/
structure Caller where
  shared : Shared
  running : Option (Request × Pc)

def init (ram nfile : Int) : Caller := ⟨⟨createStorage ram nfile, ⟨0, 0, 0⟩, []⟩, none⟩

/-- The operation returns when the worker turns to its answer. -/
def returns : Pc → Bool
  | .reply _ => true
  | .appStats _ => true
  | _ => false

def Caller.after (rq : Request) (e : Effect) : Caller where
  shared := e.shared
  running := (e.pc.filter fun pc => !returns pc).map (rq, ·)

def Caller.set (s : Caller) (st : InfoStorage) : Caller := { s with shared := s.shared.setStorage st }

/-- Start an operation; the changes of `fdClient_id` are one section each.
`UpdateFile` is called by the owner of the file. -/
def start (s : Caller) : Call → Option Caller
  | .insertCreateFile name fd =>
    some { s with
      running := some (⟨0, fd, .openFile name [49]⟩, .insert (createFileNode name fd) [] .test) }
  | .updateFile n fd content =>
    if (s.shared.storage.file n).any (fun f => f.fdClientId == (fd : Int)) then
      some { s with
        running := some (⟨0, fd, .appendToFile [] content⟩, .update n content [] none .test) }
    else none
  | .openFile n fd => (openSection s.shared.storage n fd).map fun o => (o.map s.set).getD s
  | .closeFile n fd => (closeSection s.shared.storage n fd).map fun o => (o.map s.set).getD s
  | .readFile n => (readNSection s.shared.storage n).map fun p => s.set p.2

def step (s : Caller) : Move → Option Caller
  | .call c => if s.running.isSome then none else start s c
  | .work =>
    match s.running with
    | none => none
    | some (rq, pc) => (wstep rq pc s.shared).map (Caller.after rq)

theorem after_returns {rq : Request} {e : Effect} {pc : Pc} (h : e.pc = some pc)
    (hr : returns pc = true) : (Caller.after rq e).running = none := by
  unfold Caller.after
  simp [h, Option.filter, hr]

theorem after_goes {rq : Request} {e : Effect} {pc : Pc} (h : e.pc = some pc)
    (hr : returns pc = false) : (Caller.after rq e).running = some (rq, pc) := by
  unfold Caller.after
  simp [h, Option.filter, hr]

/-! ## The conditions -/

/-- The first file that may be evicted, from `last` to `head`. -/
def evictee (st : InfoStorage) : Option NodeId :=
  (follow st.father st.brk st.last).find? st.evictableAt

/-- There is a slot, or the file that makes room is at an end. -/
def insertSound (st : InfoStorage) : Bool :=
  !noFileRoom st || (evictee st).all fun n => !st.inner n

/-- The file is too large for the storage and was never written. -/
def oversize (st : InfoStorage) (n : NodeId) (content : Bytes) : Bool :=
  st.ramTot - content.length < 0 && (st.file n).any fun f => f.modified == -1

/-- A file that deletes itself is at an end; otherwise the bytes fit, or the
last file may be evicted. -/
def updateSound (st : InfoStorage) (n : NodeId) (content : Bytes) : Bool :=
  if oversize st n content then !st.inner n
  else !noRamRoom st content.length || st.last.all st.evictableAt

/-- The condition on a move. -/
def sound (s : Caller) : Move → Bool
  | .call (.insertCreateFile _ _) => insertSound s.shared.storage
  | .call (.updateFile n _ content) => updateSound s.shared.storage n content
  | _ => true

/-! ## What every section keeps -/

/-- The storage is a list, and its counters are right. -/
structure SeqOk (st : InfoStorage) : Prop where
  rep : Rep st st.nodes
  fresh : st.store.Fresh
  balanced : st.store.Balanced
  room : 0 ≤ st.nfileDispo

section

variable {st st' : InfoStorage} {l : List NodeId} {n m : NodeId} {f : File} {x : Node}
variable {cur : Ptr} {content : Bytes}

theorem seqOk_of_rep (h : Rep st l) (hf : st.store.Fresh) (hb : st.store.Balanced)
    (hr : 0 ≤ st.nfileDispo) : SeqOk st :=
  ⟨h.nodes_eq hf ▸ h, hf, hb, hr⟩

theorem SeqOk.sameLinks (h : SeqOk st) (hs : SameLinks st st') (hf : st'.store.Fresh)
    (hb : st'.store.Balanced) (hr : 0 ≤ st'.nfileDispo) : SeqOk st' :=
  seqOk_of_rep (h.rep.sameLinks hs) hf hb hr

/-- Taking out a node at an end. -/
theorem SeqOk.remove {l₁ l₂ : List NodeId} (h : SeqOk st) (hl : st.nodes = l₁ ++ n :: l₂)
    (hr : Relinked st n st' cur) (hfile : st.store.files n = some f)
    (hst : st'.store = st.store.remove n f) (hinner : st.inner n = false) :
    SeqOk st' ∧ st'.nodes = l₁ ++ l₂ ∧ cur = l₁.getLast? ∧
      st'.nfileDispo = st.nfileDispo + 1 := by
  have hrep := h.rep
  rw [hl] at hrep
  obtain ⟨hrep', hcur⟩ := hrep.relinked hr hst hinner
  have hfresh : st'.store.Fresh := hst ▸ h.fresh.remove
  have hn : st'.nfileDispo = st.nfileDispo + 1 := congrArg Store.nfileDispo hst
  have hroom := h.room
  exact ⟨seqOk_of_rep hrep' hfresh (hst ▸ h.balanced.remove h.fresh hfile) (by omega),
    hrep'.nodes_eq hfresh, hcur, hn⟩

/-- The first evictable file, read off the list. -/
theorem SeqOk.evictee_eq {l₁ l₂ : List NodeId} (h : SeqOk st) (hl : st.nodes = l₁ ++ n :: l₂)
    (hn : st.evictableAt n = true) (hl₂ : ∀ m ∈ l₂, st.evictableAt m = false) :
    evictee st = some n := by
  unfold evictee
  rw [h.rep.nodes_reverse h.fresh, hl, List.reverse_append, List.reverse_cons, List.append_assoc,
    List.find?_append]
  have hnone : l₂.reverse.find? st.evictableAt = none :=
    List.find?_eq_none.mpr fun m hm => by rw [hl₂ m (List.mem_reverse.mp hm)]; decide
  rw [hnone, Option.none_or]
  simp [hn]

/-! ## insertCreateFile -/

/-- What holds inside `insertCreateFile`: the nodes behind the cursor may not
be evicted, as long as there is no slot. -/
def InsOk (st : InfoStorage) : InsPc → Prop
  | .inner _ cur => insertSound st = true ∧ (noFileRoom st = true → ∃ l₁ l₂, st.nodes = l₁ ++ l₂ ∧
      cur = l₁.getLast? ∧ ∀ m ∈ l₂, st.evictableAt m = false)
  | .evict _ c => insertSound st = true ∧ noFileRoom st = true ∧
      ∃ l₁ l₂, st.nodes = l₁ ++ c :: l₂ ∧ ∀ m ∈ l₂, st.evictableAt m = false
  | .commit => 0 < st.nfileDispo
  | _ => insertSound st = true

/-- A local move of `insertCreateFile` keeps its place in the scan. -/
theorem insOk_goes {p p' : InsPc} (h : SeqOk st) (hg : InsGoes st p p') (hp : InsOk st p) :
    InsOk st p' := by
  cases hg with
  | lacks => exact hp
  | free room => exact slot_of_room room
  | again => exact hp
  | stop => exact hp
  | last =>
    refine ⟨hp, fun _ => ⟨st.nodes, [], ?_, ?_, ?_⟩⟩
    · rw [List.append_nil]
    · exact h.rep.linked.last_eq
    · intro m hm; cases hm
  | scanned => exact hp.1
  | next lack =>
    obtain ⟨hsound, hscan⟩ := hp
    obtain ⟨l₁, l₂, hl, hcur, hl₂⟩ := hscan lack
    obtain ⟨l₀, rfl⟩ := List.getLast?_eq_some_iff.mp hcur.symm
    exact ⟨hsound, lack, l₀, l₂, by rw [hl]; simp, hl₂⟩
  | enough => exact hp.1
  | @refused _ c kept =>
    -- the cursor moves on, and this node is one more behind it
    obtain ⟨hsound, hr, l₁, l₂, hl, hl₂⟩ := hp
    have hfather : st.father c = l₁.getLast? := (hl ▸ h.rep.linked).father_eq
    refine ⟨hsound, fun _ => ⟨l₁, c :: l₂, hl, hfather, fun m hm => ?_⟩⟩
    rcases List.mem_cons.mp hm with rfl | hm
    · exact kept
    · exact hl₂ m hm
  | room room => exact slot_of_room room

/-- The file that makes room is at an end, and one removal is enough. -/
theorem SeqOk.evictFirst {c : NodeId} {cnt : Nat} {rm : Bytes} {k : Int} {r : Removal}
    (h : SeqOk st) (hp : InsOk st (.evict cnt c)) (hrm : removeFile c rm st k = some (some r)) :
    SeqOk r.storage ∧ noFileRoom r.storage = false := by
  obtain ⟨hsound, hr, l₁, l₂, hl, hl₂⟩ := hp
  obtain ⟨f, hfile, hev, hst, -⟩ := store_removeFile hrm
  have hinner : st.inner c = false := by
    unfold insertSound at hsound
    rw [hr, h.evictee_eq hl (evictableAt_of_file hfile hev) hl₂] at hsound
    simpa using hsound
  obtain ⟨hok, -, -, hn⟩ := h.remove hl (relinked_removeFile hrm) hfile hst hinner
  refine ⟨hok, ?_⟩
  have hroom := h.room
  simp only [noFileRoom, decide_eq_false_iff_not]
  omega

theorem insert_step {rq : Request} {rm : Bytes} {p : InsPc} {sh : Shared}
    (h : SeqOk sh.storage) (hs : x.son = none) (hf : x.father = none) (hz : x.fileSz = 0)
    (hp : InsOk sh.storage p) :
    ∃ e, insertStep rq x rm p sh = some e ∧ SeqOk e.shared.storage ∧
      ((∃ a, e.pc = some (.reply a)) ∨
        ∃ rm' p', e.pc = some (.insert x rm' p') ∧ InsOk e.shared.storage p') := by
  have hcur : ∀ cnt c, p = .evict cnt c → sh.storage.Stored c := by
    intro cnt c hpc
    subst hpc
    obtain ⟨-, -, l₁, l₂, hl, -⟩ := hp
    exact (h.rep.mem c).mp (hl ▸ by simp)
  obtain ⟨e, he⟩ := @insertStep_defined rq sh x rm p _ h.rep hcur
  refine ⟨e, he, ?_⟩
  cases insertStep_cases he with
  | go hg => exact ⟨h, .inr ⟨_, _, rfl, insOk_goes h hg hp⟩⟩
  | @evict _ c r hrm =>
    obtain ⟨hok, hnow⟩ := h.evictFirst hp hrm
    refine ⟨hok, .inr ⟨_, _, rfl, ?_, fun hno => ?_⟩⟩
    · show insertSound r.storage = true
      unfold insertSound
      rw [hnow]
      rfl
    · change noFileRoom r.storage = true at hno
      rw [hnow] at hno
      cases hno
  | fail => exact ⟨h, .inl ⟨_, rfl⟩⟩
  | @commit st' hst' =>
    have hst := store_insertSection hst'
    have hfresh : st'.store.Fresh := hst ▸ h.fresh.insert
    have hn : st'.nfileDispo = sh.storage.nfileDispo - 1 := congrArg Store.nfileDispo hst
    change 0 < sh.storage.nfileDispo at hp
    refine ⟨?_, .inl ⟨_, rfl⟩⟩
    exact seqOk_of_rep (h.rep.linkedIn h.fresh (linkedIn_insertSection hst' hs hf) hst) hfresh
      (hst ▸ h.balanced.insert hz) (by show 0 ≤ st'.nfileDispo; omega)

/-! ## UpdateFile -/

/-- While bytes lack, the scan of `UpdateFile` stands on the last file, which
may be evicted or is what a removal has left in `current_file`. -/
def scanOk (st : InfoStorage) (cf : Option Ptr) : Prop :=
  cf = some st.last ∨ (cf = none ∧ ∀ m, st.last = some m → st.evictableAt m = true)

/-- What holds inside `UpdateFile`. -/
def UpdOk (st : InfoStorage) (n : NodeId) (content : Bytes) (cf : Option Ptr) : UpdPc → Prop
  | .test => cf = none ∧ updateSound st n content = true
  | .oversize => st.inner n = false
  | .inner _ cur => cur = st.last ∧ (noRamRoom st content.length = true → scanOk st cf)
  | .evict _ m => st.last = some m ∧ scanOk st cf
  | .full => True
  | .owner _ => True
  | .commit => True
  | _ => noRamRoom st content.length = true → scanOk st cf

/-- A sound append that does not delete its own file starts its scan on a file
that may be evicted. -/
theorem updateSound_last (hs : updateSound st n content = true)
    (ho : oversize st n content = false) (hr : noRamRoom st content.length = true) :
    ∀ m, st.last = some m → st.evictableAt m = true := by
  intro m hm
  unfold updateSound at hs
  rw [ho, hr, hm] at hs
  simpa using hs

/-- Evicting the last file leaves the cursor on the new last one. -/
theorem SeqOk.evictLast {rm : Bytes} {k : Int} {r : Removal} (h : SeqOk st)
    (hm : st.last = some m) (hr : removeFile m rm st k = some (some r)) :
    SeqOk r.storage ∧ r.currentFile = r.storage.last := by
  obtain ⟨g, hg, -, hst, -⟩ := store_removeFile hr
  obtain ⟨l₁, hl⟩ : ∃ l₁, st.nodes = l₁ ++ m :: [] :=
    List.getLast?_eq_some_iff.mp (h.rep.linked.last_eq ▸ hm)
  have hinner : st.inner m = false := by
    unfold InfoStorage.inner
    rw [show st.son m = none from (hl ▸ h.rep.linked).son_eq]
    rfl
  obtain ⟨hok, hnodes, hcur, -⟩ := h.remove hl (relinked_removeFile hr) hg hst hinner
  exact ⟨hok, by rw [hcur, hok.rep.linked.last_eq, hnodes, List.append_nil]⟩

/-- Whether the file deletes itself, once its record is read. -/
theorem oversize_eq {x : Node} (hx : st.heap n = some x) :
    oversize st n content = (decide (st.ramTot - content.length < 0) && x.modified == -1) := by
  unfold oversize
  rw [show st.file n = some _ from file_of_heap hx]
  rfl

/-- A local move of `UpdateFile` keeps its place in the scan. -/
theorem updOk_goes {rq : Request} {cf : Option Ptr} {p p' : UpdPc}
    (hg : UpdGoes rq n content cf st p p') (hp : UpdOk st n content cf p) :
    UpdOk st n content cf p' := by
  cases hg with
  | large hlarge hnode hfresh =>
    obtain ⟨-, hsound⟩ := hp
    have hover : oversize st n content = true := by
      rw [oversize_eq hnode]
      simp [hlarge, hfresh]
    show st.inner n = false
    unfold updateSound at hsound
    rw [hover] at hsound
    simpa using hsound
  | small hsmall =>
    have hover : oversize st n content = false := by
      unfold oversize
      simp [hsmall]
    exact fun hr => .inr ⟨hp.1, updateSound_last hp.2 hover hr⟩
  | written hnode hwritten =>
    have hover : oversize st n content = false := by
      rw [oversize_eq hnode]
      simp [hwritten]
    exact fun hr => .inr ⟨hp.1, updateSound_last hp.2 hover hr⟩
  | lacks => exact hp
  | fits => exact trivial
  | again => exact hp
  | stop => exact trivial
  | last => exact ⟨rfl, hp⟩
  | scanned => exact hp.2
  | next lack => exact ⟨hp.1.symm, hp.2 lack⟩
  | enough room => exact fun hno => absurd (hno.symm.trans room) (by decide)
  | refused kept hset =>
    -- the cursor is what the last removal has left, the last file
    obtain ⟨hlast, hscan⟩ := hp
    rcases hscan with hcf | ⟨-, hev⟩
    · exact ⟨Option.some.inj (hset.symm.trans hcf), fun _ => .inl hcf⟩
    · rw [hev _ hlast] at kept
      cases kept
  | room => exact trivial
  | wait => exact trivial
  | owned => exact trivial

theorem update_step {rq : Request} {rm : Bytes} {cf : Option Ptr} {p : UpdPc} {sh : Shared}
    (h : SeqOk sh.storage) (ho : sh.storage.store.Owned n rq.fd)
    (hp : UpdOk sh.storage n content cf p) :
    ∃ e, updateStep rq n content rm cf p sh = some e ∧ SeqOk e.shared.storage ∧
      ((∃ a, e.pc = some (.appStats a)) ∨
        ∃ rm' cf' p', e.pc = some (.update n content rm' cf' p') ∧
          e.shared.storage.store.Owned n rq.fd ∧ UpdOk e.shared.storage n content cf' p') := by
  have hn : sh.storage.Stored n := by
    obtain ⟨f, hfile, -⟩ := ho
    exact stored_iff_files.mpr ⟨f, hfile⟩
  have hcur : ∀ cnt m, p = .evict cnt m → sh.storage.Stored m ∧
      (sh.storage.evictableAt m = false → cf ≠ none) := by
    intro cnt m hpc
    subst hpc
    obtain ⟨hlast, hscan⟩ := hp
    refine ⟨(h.rep.mem m).mp (h.rep.linked.last_mem hlast), fun hkept hnone => ?_⟩
    rcases hscan with hcf | ⟨-, hev⟩
    · rw [hnone] at hcf
      cases hcf
    · rw [hev m hlast] at hkept
      cases hkept
  obtain ⟨e, he⟩ := @updateStep_defined rq sh n content rm cf p _ h.rep hn hcur
  refine ⟨e, he, ?_⟩
  cases updateStep_cases he with
  | go hg => exact ⟨h, .inr ⟨_, _, _, rfl, ho, updOk_goes hg hp⟩⟩
  | @delete r hr =>
    obtain ⟨g, hg, hst, -⟩ := store_oversizeSection hr
    obtain ⟨l₁, l₂, hl⟩ := List.append_of_mem ((h.rep.mem n).mpr hn)
    obtain ⟨hok, -⟩ := h.remove hl (relinked_oversizeSection hr) hg hst hp
    exact ⟨hok, .inl ⟨_, rfl⟩⟩
  | @evict _ m r hrm =>
    obtain ⟨hlast, -⟩ := hp
    obtain ⟨g, hg, heg, hst, -⟩ := store_removeFile hrm
    obtain ⟨hok, hlast'⟩ := h.evictLast hlast hrm
    -- the file appended to is open, so it is not the one that goes
    have hne : n ≠ m := by
      intro heq
      subst heq
      have := ho.unique (Store.owned_of_evictable hg heg)
      omega
    refine ⟨hok, .inr ⟨_, _, _, rfl, ?_, hlast', fun _ => .inl ?_⟩⟩
    · show r.storage.store.Owned n rq.fd
      rw [hst]
      exact ho.remove hne
    · exact congrArg some hlast'
  | fail => exact ⟨h, .inl ⟨_, rfl⟩⟩
  | deny => exact ⟨h, .inl ⟨_, rfl⟩⟩
  | @commit st' hst' =>
    obtain ⟨g, hg, -, hst⟩ := store_updateSection hst'
    refine ⟨?_, .inl ⟨_, rfl⟩⟩
    refine h.sameLinks (sameLinks_updateSection hst') ?_ ?_ ?_
    · exact hst ▸ h.fresh.append
    · exact hst ▸ h.balanced.append h.fresh hg content
    · have hn : st'.nfileDispo = sh.storage.nfileDispo := congrArg Store.nfileDispo hst
      exact hn ▸ h.room

end

/-! ## Runs -/

/-- What holds of the operation in progress. -/
def Running (st : InfoStorage) : Option (Request × Pc) → Prop
  | none => True
  | some (_, .insert x _ p) => x.son = none ∧ x.father = none ∧ x.fileSz = 0 ∧ InsOk st p
  | some (rq, .update n content _ cf p) => st.store.Owned n rq.fd ∧ UpdOk st n content cf p
  | some _ => False

structure SeqInv (s : Caller) : Prop where
  ok : SeqOk s.shared.storage
  running : Running s.shared.storage s.running

theorem seqInv_init {ram nfile : Int} (hnfile : 1 ≤ nfile) : SeqInv (init ram nfile) where
  ok := seqOk_of_rep (rep_createStorage ram nfile) (by intro n f h; cases h)
    (Store.balanced_createStorage ram nfile) (by show 0 ≤ nfile; omega)
  running := trivial

/-- The next section of the operation in progress is defined and keeps the
storage. -/
theorem work_step {s : Caller} {rq : Request} {pc : Pc} (hi : SeqInv s)
    (hr : s.running = some (rq, pc)) :
    ∃ e, wstep rq pc s.shared = some e ∧ SeqInv (Caller.after rq e) := by
  have hrun := hi.running
  rw [hr] at hrun
  cases pc with
  | insert x rm p =>
    obtain ⟨hs, hf, hz, hp⟩ := hrun
    obtain ⟨e, he, hok, hpc⟩ := @insert_step _ rq rm _ _ hi.ok hs hf hz hp
    refine ⟨e, he, hok, ?_⟩
    rcases hpc with ⟨a, ha⟩ | ⟨rm', p', hp', hins⟩
    · rw [after_returns ha rfl]; trivial
    · rw [after_goes hp' rfl]; exact ⟨hs, hf, hz, hins⟩
  | update n content rm cf p =>
    obtain ⟨ho, hp⟩ := hrun
    obtain ⟨e, he, hok, hpc⟩ := @update_step _ _ rq rm _ _ _ hi.ok ho hp
    refine ⟨e, he, hok, ?_⟩
    rcases hpc with ⟨a, ha⟩ | ⟨rm', cf', p', hp', ho', hupd⟩
    · rw [after_returns ha rfl]; trivial
    · rw [after_goes hp' rfl]; exact ⟨ho', hupd⟩
  | _ => exact hrun.elim

/-- A change of `fdClient_id` moves no counter and no link. -/
theorem setFd_seqOk {st st' : InfoStorage} {n : NodeId} {f : File} {fd : Int} (h : SeqOk st)
    (hl : SameLinks st st') (hf : st.store.files n = some f)
    (hst : st'.store = st.store.setFd n fd) : SeqOk st' := by
  refine h.sameLinks hl (hst ▸ h.fresh.setFd) (hst ▸ h.balanced.setFd h.fresh hf fd) ?_
  have hn : st'.nfileDispo = st.nfileDispo := congrArg Store.nfileDispo hst
  exact hn ▸ h.room

theorem start_step {s t : Caller} {c : Call} (hi : SeqInv s) (hidle : s.running = none)
    (hg : sound s (.call c) = true) (h : start s c = some t) : SeqInv t := by
  cases c with
  | insertCreateFile name fd =>
    simp only [start, Option.some.injEq] at h
    exact h ▸ ⟨hi.ok, rfl, rfl, rfl, hg⟩
  | updateFile n fd content =>
    simp only [start] at h
    split at h
    · next ho =>
      simp only [Option.some.injEq] at h
      obtain ⟨f, hf, hfd⟩ := (Option.any_eq_true _ _).mp ho
      exact h ▸ ⟨hi.ok, ⟨f, hf, beq_iff_eq.mp hfd⟩, rfl, hg⟩
    · cases h
  | openFile n fd =>
    obtain ⟨o, ho, rfl⟩ := Option.map_eq_some_iff.mp h
    cases o with
    | none => exact hi
    | some st =>
      obtain ⟨f, hf, -, hst⟩ := store_openSection ho
      refine ⟨setFd_seqOk hi.ok (sameLinks_openSection ho) hf hst, ?_⟩
      show Running _ s.running
      rw [hidle]
      trivial
  | closeFile n fd =>
    obtain ⟨o, ho, rfl⟩ := Option.map_eq_some_iff.mp h
    cases o with
    | none => exact hi
    | some st =>
      obtain ⟨f, hf, -, hst⟩ := store_closeSection ho
      refine ⟨setFd_seqOk hi.ok (sameLinks_closeSection ho) hf hst, ?_⟩
      show Running _ s.running
      rw [hidle]
      trivial
  | readFile n =>
    obtain ⟨⟨node, st⟩, ho, rfl⟩ := Option.map_eq_some_iff.mp h
    obtain ⟨hn, hst⟩ := store_readNSection ho
    have hlinks := sameLinks_readNSection ho
    refine ⟨?_, by show Running _ s.running; rw [hidle]; trivial⟩
    show SeqOk st
    by_cases hm : node.modified = -1
    · rw [if_pos hm] at hst
      refine hi.ok.sameLinks hlinks (hst ▸ hi.ok.fresh) (hst ▸ hi.ok.balanced) ?_
      have hroom : st.nfileDispo = s.shared.storage.nfileDispo := congrArg Store.nfileDispo hst
      exact hroom ▸ hi.ok.room
    · rw [if_neg hm] at hst
      exact setFd_seqOk hi.ok hlinks (file_of_heap hn) hst

theorem seqInv_step {s t : Caller} {mv : Move} (hi : SeqInv s) (hg : sound s mv = true)
    (h : step s mv = some t) : SeqInv t := by
  cases mv with
  | call c =>
    simp only [step] at h
    split at h
    · cases h
    · next hidle => exact start_step hi (by simpa using hidle) hg h
  | work =>
    simp only [step] at h
    split at h
    · cases h
    · next rq pc hr =>
      obtain ⟨e, he, hinv⟩ := work_step hi hr
      rw [he] at h
      simp only [Option.map_some, Option.some.injEq] at h
      exact h ▸ hinv

/-- **The representation invariant holds after every operation**, if every call
meets its condition. No section is undefined, and neither is a search. -/
theorem storage_ok {ram nfile : Int} {s : Caller} (hnfile : 1 ≤ nfile)
    (h : Reach step (fun s mv => sound s mv = true) (init ram nfile) s) :
    StorageOk s.shared.storage ∧
      (∀ pathname, ∃ o, searchFileNode pathname s.shared.storage = some o) ∧
      (s.running.isSome = true → ∃ t, step s .work = some t) := by
  have hi := h.invariant SeqInv (seqInv_init hnfile) fun _ _ _ hi hg hs => seqInv_step hi hg hs
  refine ⟨hi.ok.rep.ok hi.ok.fresh hi.ok.balanced, fun pathname => ?_, fun hrun => ?_⟩
  · exact ⟨_, hi.ok.rep.search hi.ok.fresh hi.ok.balanced pathname⟩
  · obtain ⟨⟨rq, pc⟩, hr⟩ := Option.isSome_iff_exists.mp hrun
    obtain ⟨e, he, -⟩ := work_step hi hr
    exact ⟨Caller.after rq e, by simp [step, hr, he]⟩

/-- With two slots, the third file evicts the first one, which is the last of
the list. -/
theorem storage_ok_evict :
    ∃ s, Reach step (fun s mv => sound s mv = true) (init 10 2) s ∧
      s.shared.storage.nodes = [2, 1] ∧ StorageOk s.shared.storage := by
  obtain ⟨s, hr, hp⟩ := Reach.of_guarded_test step sound (init 10 2)
    (List.flatten [[.call (.insertCreateFile [47, 97] 4), .work, .work,
        .call (.updateFile 0 4 [120]), .work, .work, .work, .work, .call (.closeFile 0 4),
        .call (.insertCreateFile [47, 98] 4), .work, .work,
        .call (.insertCreateFile [47, 99] 4)], List.replicate 9 .work])
    (fun s => s.shared.storage.nodes == [2, 1]) (by decide +kernel)
  exact ⟨s, hr, beq_iff_eq.mp hp, (storage_ok (by decide) hr).1⟩

/-- With three slots, the second file is closed and written, the others are
open: the fourth file evicts it from the middle, and the walk from `head` still
visits it. -/
theorem storage_broken_in_the_middle :
    ∃ s, Reach step anyStep (init 10 3) s ∧ s.running = none ∧ ¬ StorageOk s.shared.storage := by
  obtain ⟨s, hr, hp⟩ := Reach.of_run_test step (init 10 3)
    (List.flatten [[.call (.insertCreateFile [47, 97] 4), .work, .work,
        .call (.insertCreateFile [47, 98] 4), .work, .work,
        .call (.updateFile 1 4 [120]), .work, .work, .work, .work, .call (.closeFile 1 4),
        .call (.insertCreateFile [47, 99] 4), .work, .work,
        .call (.insertCreateFile [47, 100] 4)], List.replicate 11 .work])
    (fun s => s.running.isNone && s.shared.storage.nodes.contains 1 &&
      !decide (s.shared.storage.Stored 1)) (by decide +kernel)
  simp only [Bool.and_eq_true, Option.isNone_iff_eq_none, List.contains_iff_mem,
    Bool.not_eq_true', decide_eq_false_iff_not] at hp
  exact ⟨s, hr, hp.1.1, fun hok => hp.2 ((hok.visits 1).mp hp.1.2)⟩

end FileStorage.Worker.Sequential

import FileStorage.Storage.Model

/-!
# A worker handling one request

`threadF` in `includes/util_server.c` serves one request after another, and for
OPEN and APPEND calls `insertCreateFile` and `UpdateFile`. A worker is modelled
as a program counter `Pc` that holds the handler's live local variables, and
`wstep` executes one atomic step of it:

* a section between `LOCK` and `UNLOCK` of the storage lock is one step;
* outside the lock every read of shared memory (`nfile_dispo`, `ram_dispo`,
  `last`, `head`, a node's `fdClient_id`) is a step of its own, so any other
  worker may act between two of them;
* thread-local tests and assignments ride with the step before them, and
  `sleep` is nothing.

`wstep` is `none` exactly where the C code has no defined behaviour. An effect
without a next program counter ends the request. Each step reports at most one
`Event`; the handlers never read events.
-/

namespace FileStorage.Worker

open FileStorage.Lib FileStorage.Storage

/-- A parsed request, by `api_id`. -/
inductive Op where
  | closeConnection (sockname : Bytes)
  | openFile (pathname flag : Bytes)
  | readFile (pathname : Bytes)
  | readNFiles (n : Int)
  | appendToFile (pathname content : Bytes)
  | closeFile (pathname : Bytes)
  deriving DecidableEq

/-- The request a worker holds. `id` is the identity of the `sms_request`. -/
structure Request where
  id : Nat
  fd : Nat
  op : Op
  deriving DecidableEq

/-- The text answers of `threadF`: `"-1"`, `"0"`, and `"0"` with the pathnames
of the removed files. -/
inductive Answer where
  | ko
  | ok
  | okRemoved (rmPath : Bytes)
  deriving DecidableEq

/-- What a step lets the outside see, or decides about a file. -/
inductive Event where
  | accepted (fd : Nat)
  | requested (rq : Request)
  | opened (rq : Request) (n : NodeId)
  | closed (rq : Request) (n : NodeId)
  | evicted (rq : Request) (n : NodeId)
  | deleted (rq : Request) (n : NodeId)
  | appended (rq : Request) (n : NodeId) (content : Bytes)
  | frame (rq : Request) (n : NodeId) (pathname : Bytes) (size : Int) (content : Bytes)
  | answered (rq : Request) (a : Answer)
  | disconnected (rq : Request) (a : Answer)
  deriving DecidableEq

/-- `statistics_t`. -/
structure Statistics where
  maxNfile : Int
  maxMemUsed : Int
  cntFileRemoved : Int
  deriving DecidableEq

/-- What the workers share. `sockname` is `cfg->SOCKNAME`. -/
structure Shared where
  storage : InfoStorage
  statistics : Statistics
  sockname : Bytes

/-- Where a worker is inside `insertCreateFile`. -/
inductive InsPc where
  | test
  | outer (cnt : Nat)
  | last (cnt : Nat)
  | inner (cnt : Nat) (currentFile : Ptr)
  | evict (cnt : Nat) (currentFile : NodeId)
  | full
  | commit
  deriving DecidableEq

/-- Where a worker is inside `UpdateFile`. -/
inductive UpdPc where
  | test
  | oversize
  | ram
  | outer (cnt : Nat)
  | last (cnt : Nat)
  | inner (cnt : Nat) (isRemovable : Ptr)
  | evict (cnt : Nat) (isRemovable : NodeId)
  | full
  | owner (cnt : Nat)
  | commit
  deriving DecidableEq

/-- Where a worker is inside `threadF`, with the live locals. In `update`,
`currentFile` is the out parameter of the eviction loop; `none` means that it
has not been set yet. -/
inductive Pc where
  | openSearch (pathname flag : Bytes)
  | openPoll (file : NodeId) (cnt : Nat)
  | insert (node : Node) (rmPath : Bytes) (p : InsPc)
  | readSearch (pathname : Bytes)
  | readPoll (file : NodeId) (cnt : Nat)
  | readLocked (file : NodeId)
  | readNStart (n : Int)
  | readNHead (nRead : Int)
  | readNLoop (check nRead : Int) (current : Ptr)
  | appSearch (pathname content : Bytes)
  | appPoll (file : NodeId) (cnt : Nat) (content : Bytes)
  | appLocked (file : NodeId) (content : Bytes)
  | update (file : NodeId) (content rmPath : Bytes) (currentFile : Option Ptr) (p : UpdPc)
  | appStats (a : Answer)
  | closeSearch (pathname : Bytes)
  | closePoll (file : NodeId) (cnt : Nat)
  | closeConn (sockname : Bytes)
  | reply (a : Answer)
  deriving DecidableEq

/-- Where the handler that `api_id` selects begins. -/
def entry : Op → Pc
  | .closeConnection sockname => .closeConn sockname
  | .openFile pathname flag => .openSearch pathname flag
  | .readFile pathname => .readSearch pathname
  | .readNFiles n => .readNStart n
  | .appendToFile pathname content => .appSearch pathname content
  | .closeFile pathname => .closeSearch pathname

/-- The result of a step. -/
structure Effect where
  pc : Option Pc
  shared : Shared
  event : Option Event

/-- Go on without touching shared memory. -/
def goto (pc : Pc) (sh : Shared) : Option Effect := some ⟨some pc, sh, none⟩

def Shared.setStorage (sh : Shared) (st : InfoStorage) : Shared := { sh with storage := st }

/-- The storage and the removal counter after a `removeFile` that returned 0. -/
def Shared.removed (sh : Shared) (r : Removal) : Shared :=
  { sh with
    storage := r.storage
    statistics := { sh.statistics with cntFileRemoved := r.nfileRemoved } }

/-- One step of `insertCreateFile`. -/
def insertStep (rq : Request) (node : Node) (rmPath : Bytes) (p : InsPc) (sh : Shared) :
    Option Effect :=
  match p with
  | .test =>
    if noFileRoom sh.storage then goto (.insert node rmPath (.outer 0)) sh
    else goto (.insert node rmPath .commit) sh
  | .outer cnt =>
    if noFileRoom sh.storage && cnt < TIMER then goto (.insert node rmPath (.last cnt)) sh
    else goto (.insert node rmPath .full) sh
  | .last cnt => goto (.insert node rmPath (.inner cnt sh.storage.last)) sh
  | .inner cnt none => goto (.insert node rmPath (.outer (cnt + 1))) sh
  | .inner cnt (some currentFile) =>
    if noFileRoom sh.storage then goto (.insert node rmPath (.evict cnt currentFile)) sh
    else goto (.insert node rmPath (.outer (cnt + 1))) sh
  | .evict cnt currentFile =>
    match removeFile currentFile rmPath sh.storage sh.statistics.cntFileRemoved with
    | none => none
    | some none => goto (.insert node rmPath (.inner cnt (sh.storage.father currentFile))) sh
    | some (some r) =>
      some ⟨some (.insert node r.rmPath (.inner cnt r.currentFile)), sh.removed r,
        some (.evicted rq currentFile)⟩
  | .full =>
    if noFileRoom sh.storage then goto (.reply .ko) sh
    else goto (.insert node rmPath .commit) sh
  | .commit =>
    match insertSection sh.storage node with
    | none => none
    | some st =>
      some ⟨some (.reply (.okRemoved rmPath)), sh.setStorage st,
        some (.opened rq sh.storage.brk)⟩

/-- One step of `UpdateFile`. -/
def updateStep (rq : Request) (file : NodeId) (content rmPath : Bytes)
    (currentFile : Option Ptr) (p : UpdPc) (sh : Shared) : Option Effect :=
  let st := sh.storage
  let next (p : UpdPc) : Option Effect := goto (.update file content rmPath currentFile p) sh
  match p with
  | .test =>
    if st.ramTot - content.length < 0 then
      match st.heap file with
      | none => none
      | some node => if node.modified = -1 then next .oversize else next .ram
    else next .ram
  | .oversize =>
    match oversizeSection st file rmPath sh.statistics.cntFileRemoved with
    | none => none
    | some r => some ⟨some (.appStats .ko), sh.removed r, some (.deleted rq file)⟩
  | .ram => if noRamRoom st content.length then next (.outer 0) else next (.owner 0)
  | .outer cnt =>
    if noRamRoom st content.length && cnt < TIMER then next (.last cnt) else next .full
  | .last cnt => next (.inner cnt st.last)
  | .inner cnt none => next (.outer (cnt + 1))
  | .inner cnt (some isRemovable) =>
    if noRamRoom st content.length then next (.evict cnt isRemovable)
    else next (.outer (cnt + 1))
  | .evict cnt isRemovable =>
    match removeFile isRemovable rmPath st sh.statistics.cntFileRemoved with
    | none => none
    | some none =>
      -- `is_removable->father` is stored first and then overwritten by
      -- `current_file`, which the refusing call has left as it was
      match currentFile with
      | none => none
      | some cur => next (.inner cnt cur)
    | some (some r) =>
      some ⟨some (.update file content r.rmPath (some r.currentFile) (.inner cnt r.currentFile)),
        sh.removed r, some (.evicted rq isRemovable)⟩
  | .full => if noRamRoom st content.length then goto (.appStats .ko) sh else next (.owner 0)
  | .owner cnt =>
    match st.heap file with
    | none => none
    | some node =>
      if (rq.fd : Int) ≠ node.fdClientId ∧ cnt < TIMER then next (.owner (cnt + 1))
      else next .commit
  | .commit =>
    match updateSection st file rq.fd content with
    | none => none
    | some none => goto (.appStats .ko) sh
    | some (some st') =>
      some ⟨some (.appStats (.okRemoved rmPath)), sh.setStorage st',
        some (.appended rq file content)⟩

/-- The peaks that APPEND records after its update. -/
def Shared.sample (sh : Shared) : Shared :=
  { sh with
    statistics :=
      { sh.statistics with
        maxMemUsed := max sh.statistics.maxMemUsed (sh.storage.ramTot - sh.storage.ramDispo)
        maxNfile := max sh.statistics.maxNfile (sh.storage.nfileTot - sh.storage.nfileDispo) } }

/-- One atomic step of `threadF` on the request `rq`. -/
def wstep (rq : Request) (pc : Pc) (sh : Shared) : Option Effect :=
  match pc with
  | .openSearch pathname flag =>
    match searchFileNode pathname sh.storage with
    | none => none
    | some create =>
      if (create.isSome && strncmpEq flag [49] 1) || (create.isNone && strncmpEq flag [48] 1) then
        goto (.reply .ko) sh
      else
        match create with
        | none => goto (.insert (createFileNode pathname rq.fd) [] .test) sh
        | some file => goto (.openPoll file 0) sh
  | .openPoll file cnt =>
    match openSection sh.storage file rq.fd with
    | none => none
    | some (some st) => some ⟨some (.reply .ok), sh.setStorage st, some (.opened rq file)⟩
    | some none =>
      if cnt + 1 < TIMER then goto (.openPoll file (cnt + 1)) sh else goto (.reply .ko) sh
  | .insert node rmPath p => insertStep rq node rmPath p sh
  | .readSearch pathname =>
    match searchFileNode pathname sh.storage with
    | none => none
    | some none => goto (.reply .ko) sh
    | some (some file) => goto (.readPoll file 0) sh
  | .readPoll file cnt =>
    match sh.storage.heap file with
    | none => none
    | some node =>
      if node.fdClientId ≠ rq.fd ∧ cnt < TIMER then goto (.readPoll file (cnt + 1)) sh
      else goto (.readLocked file) sh
  | .readLocked file =>
    match sh.storage.heap file with
    | none => none
    | some node =>
      if node.fdClientId ≠ rq.fd then goto (.reply .ko) sh
      else some ⟨none, sh, some (.frame rq file node.pathname node.fileSz node.contentFile)⟩
  | .readNStart n =>
    goto (.readNHead (if n = 0 then sh.storage.nfileDispo else n)) sh
  | .readNHead nRead => goto (.readNLoop nRead nRead sh.storage.head) sh
  | .readNLoop check nRead current =>
    match current with
    | none => goto (.reply (if nRead = check then .ko else .ok)) sh
    | some n =>
      if nRead > 0 then
        match readNSection sh.storage n with
        | none => none
        | some (node, st) =>
          if node.modified = -1 then goto (.readNLoop check nRead node.son) sh
          else
            some ⟨some (.readNLoop check (nRead - 1) node.son), sh.setStorage st,
              some (.frame rq n node.pathname node.fileSz node.contentFile)⟩
      else goto (.reply (if nRead = check then .ko else .ok)) sh
  | .appSearch pathname content =>
    match searchFileNode pathname sh.storage with
    | none => none
    | some none => goto (.appStats .ko) sh
    | some (some file) => goto (.appPoll file 0 content) sh
  | .appPoll file cnt content =>
    match sh.storage.heap file with
    | none => none
    | some node =>
      if node.fdClientId ≠ rq.fd ∧ cnt < TIMER then goto (.appPoll file (cnt + 1) content) sh
      else goto (.appLocked file content) sh
  | .appLocked file content =>
    match sh.storage.heap file with
    | none => none
    | some node =>
      if node.fdClientId ≠ rq.fd then goto (.appStats .ko) sh
      else goto (.update file content [] none .test) sh
  | .update file content rmPath currentFile p =>
    updateStep rq file content rmPath currentFile p sh
  | .appStats a => goto (.reply a) sh.sample
  | .closeSearch pathname =>
    match searchFileNode pathname sh.storage with
    | none => none
    | some none => goto (.reply .ko) sh
    | some (some file) => goto (.closePoll file 0) sh
  | .closePoll file cnt =>
    match closeSection sh.storage file rq.fd with
    | none => none
    | some (some st) => some ⟨some (.reply .ok), sh.setStorage st, some (.closed rq file)⟩
    | some none =>
      if cnt + 1 < TIMER then goto (.closePoll file (cnt + 1)) sh else goto (.reply .ko) sh
  | .closeConn sockname =>
    let a := if strncmpEq sockname sh.sockname sh.sockname.length then Answer.ok else .ko
    some ⟨none, sh, some (.disconnected rq a)⟩
  | .reply a => some ⟨none, sh, some (.answered rq a)⟩

end FileStorage.Worker

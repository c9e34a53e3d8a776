import FileStorage.Lib.Text
import Mathlib.Logic.Function.Basic

/-!
# The file storage: nodes, links and critical sections

`includes/file_storage.c` keeps the stored files as C structs linked both ways
(`son` towards the oldest file, `father` towards the newest) and reached from
`head` and `last`, next to two capacity counters. The model keeps that shape:
nodes live in a `heap` indexed by their identity, and links are nullable
identities.

Conventions:
- A node identity is the address `malloc` returned. Identities are never
  reused, so a pointer to a freed node is told apart from a pointer to any
  later node. `heap n = none` after `n` was freed (or before it was inserted).
- Reading or writing through `NULL`, through a freed node or through a pointer
  that was never set is undefined behaviour; such a computation is `none`.
- The struct that `createFileNode` returns is private to its worker until it is
  linked, so it is passed by value and gets its identity when it is linked.
- `fdClient_id` and `modified` keep the source's `-1`/`1` encodings.

Only what one critical section does is defined here; the loops around the
sections are the worker's (`FileStorage.Worker.Model`).
-/

namespace FileStorage.Storage

open FileStorage.Lib

abbrev NodeId := Nat

/-- A pointer to a node; `none` is `NULL`. -/
abbrev Ptr := Option NodeId

/-- What a node says about its file. -/
structure File where
  fileSz : Int
  pathname : Bytes
  fdClientId : Int
  modified : Int
  contentFile : Bytes
  deriving DecidableEq

/-- `struct node`: a file and its two links. -/
structure Node extends File where
  son : Ptr
  father : Ptr
  deriving DecidableEq

/-- `info_storage_t`, with the heap its pointers lead into. `brk` is the next
address that `malloc` returns. -/
structure InfoStorage where
  ramTot : Int
  ramDispo : Int
  nfileTot : Int
  nfileDispo : Int
  head : Ptr
  last : Ptr
  heap : NodeId → Option Node
  brk : NodeId

/-- `#define TIMER 30`: how often a loop retries before it gives up. -/
def TIMER : Nat := 30

/-- `createFileNode`: an empty, never written file that is open by `fd`. -/
def createFileNode (name : Bytes) (fd : Int) : Node where
  fileSz := 0
  pathname := name
  fdClientId := fd
  modified := -1
  contentFile := []
  son := none
  father := none

/-- `createStorage`. -/
def createStorage (ram nfile : Int) : InfoStorage where
  ramTot := ram
  ramDispo := ram
  nfileTot := nfile
  nfileDispo := nfile
  head := none
  last := none
  heap := fun _ => none
  brk := 0

namespace InfoStorage

/-- The node is in the storage: it was inserted and not removed. -/
def Stored (st : InfoStorage) (n : NodeId) : Prop := (st.heap n).isSome = true

instance (st : InfoStorage) (n : NodeId) : Decidable (st.Stored n) :=
  inferInstanceAs (Decidable (_ = true))

/-- Write to the fields of a node. -/
def modify (st : InfoStorage) (n : NodeId) (f : Node → Node) : InfoStorage :=
  { st with heap := Function.update st.heap n ((st.heap n).map f) }

/-- `free`. -/
def free (st : InfoStorage) (n : NodeId) : InfoStorage :=
  { st with heap := Function.update st.heap n none }

/-- The links, read off the heap. -/
def son (st : InfoStorage) (n : NodeId) : Ptr := (st.heap n).bind (·.son)

def father (st : InfoStorage) (n : NodeId) : Ptr := (st.heap n).bind (·.father)

/-- The file a stored node holds. -/
def file (st : InfoStorage) (n : NodeId) : Option File := (st.heap n).map (·.toFile)

/-- The size a stored node accounts for. -/
def fileSz (st : InfoStorage) (n : NodeId) : Int := ((st.file n).map (·.fileSz)).getD 0

end InfoStorage

/-- The guard of `removeFile`: the file is closed and has been written. -/
def evictable (file : File) : Bool := file.fdClientId == -1 && file.modified == 1

/-- The relinking in `removeFile`, with the value it leaves in
`*current_file`. -/
def unlink (st : InfoStorage) (fileRemove : NodeId) (node : Node) :
    Option (InfoStorage × Ptr) :=
  match node.son, node.father with
  | none, none => some ({ st with head := none, last := none }, none)
  | none, some f => do
    let _ ← st.heap f
    some ({ st.modify f (fun x => { x with son := none }) with last := some f }, some f)
  | some s, none => do
    let _ ← st.heap s
    some ({ st.modify s (fun x => { x with father := none }) with head := some s }, none)
  | some _, some _ =>
    -- "is in the MIDDLE": the two assignments only touch the node that is freed
    let x := { node with father := node.son }
    let x := { x with son := x.father }
    some (st.modify fileRemove (fun _ => x), x.father)

/-- What `removeFile` leaves behind when it returns 0. -/
structure Removal where
  storage : InfoStorage
  currentFile : Ptr
  rmPath : Bytes
  nfileRemoved : Int

/-- `removeFile`: `some none` is the return value -1 (refused, nothing
changed, `*current_file` not set). -/
def removeFile (fileRemove : NodeId) (rmPath : Bytes) (st : InfoStorage)
    (nfileRemoved : Int) : Option (Option Removal) := do
  let node ← st.heap fileRemove
  if evictable node.toFile then
    let (st', currentFile) ← unlink st fileRemove node
    some (some
      { storage :=
          { st'.free fileRemove with
            ramDispo := st'.ramDispo + node.fileSz
            nfileDispo := st'.nfileDispo + 1 }
        currentFile := currentFile
        rmPath := rmPath ++ [44] ++ node.pathname
        nfileRemoved := nfileRemoved + 1 })
  else some none

/-- The walk of `searchFileNode`: `nb_file_check` more nodes are looked at and
the pointer is never compared with `NULL`. -/
def searchLoop (st : InfoStorage) (pathname : Bytes) : Nat → Ptr → Option (Option NodeId)
  | 0, _ => some none
  | _ + 1, none => none
  | nb + 1, some current => do
    let node ← st.heap current
    if strncmpEq node.pathname pathname pathname.length then some (some current)
    else searchLoop st pathname nb node.son

/-- `searchFileNode`: `some none` is the return value -1. The count is the
number of stored nodes in every run, hence never negative. -/
def searchFileNode (pathname : Bytes) (st : InfoStorage) : Option (Option NodeId) :=
  searchLoop st pathname (st.nfileTot - st.nfileDispo).toNat st.head

/-- The unlocked test of `insertCreateFile`: no file slot is left. -/
def noFileRoom (st : InfoStorage) : Bool := st.nfileDispo ≤ 0

/-- The unlocked test of `UpdateFile`: the bytes do not fit. -/
def noRamRoom (st : InfoStorage) (sizeBuf : Int) : Bool := st.ramDispo - sizeBuf < 0

/-- The committing section of `insertCreateFile`. -/
def insertSection (st : InfoStorage) (nodeToInsert : Node) : Option InfoStorage :=
  if st.head = none ∧ st.last = none then
    some
      { st with
        heap := Function.update st.heap st.brk (some nodeToInsert)
        brk := st.brk + 1
        head := some st.brk
        last := some st.brk
        nfileDispo := st.nfileDispo - 1 }
  else do
    let tmpHead ← st.head
    let _ ← st.heap tmpHead
    let st' := st.modify tmpHead (fun x => { x with father := some st.brk })
    some
      { st' with
        heap := Function.update st'.heap st.brk (some { nodeToInsert with son := some tmpHead })
        brk := st.brk + 1
        head := some st.brk
        nfileDispo := st.nfileDispo - 1 }

/-- The oversize section of `UpdateFile`: the file closes and removes itself.
The two writes make the guard of `removeFile` true, so it does not refuse. -/
def oversizeSection (st : InfoStorage) (n : NodeId) (rmPath : Bytes) (nfileRemoved : Int) :
    Option Removal := do
  let _ ← st.heap n
  let st' := st.modify n (fun x => { x with fdClientId := -1, modified := 1 })
  (← removeFile n rmPath st' nfileRemoved)

/-- The committing section of `UpdateFile`: `some none` is the return value -1
(the requester does not own the file any more). -/
def updateSection (st : InfoStorage) (n : NodeId) (fdCurrent : Int) (content : Bytes) :
    Option (Option InfoStorage) := do
  let node ← st.heap n
  if fdCurrent ≠ node.fdClientId then some none
  else
    let st' := st.modify n (fun x =>
      { x with
        contentFile := x.contentFile.take x.fileSz.toNat ++ content
        fileSz := x.fileSz + content.length
        modified := 1 })
    some (some { st' with ramDispo := st.ramDispo - content.length })

/-- The section of OPEN FILE on an existing file: `some none` when it is open. -/
def openSection (st : InfoStorage) (n : NodeId) (fd : Int) : Option (Option InfoStorage) := do
  let node ← st.heap n
  if node.fdClientId = -1 then some (some (st.modify n (fun x => { x with fdClientId := fd })))
  else some none

/-- The section of CLOSE FILE: `some none` when the requester is not the owner. -/
def closeSection (st : InfoStorage) (n : NodeId) (fd : Int) : Option (Option InfoStorage) := do
  let node ← st.heap n
  if node.fdClientId = fd then some (some (st.modify n (fun x => { x with fdClientId := -1 })))
  else some none

/-- The section of the READ N loop: the node, and the storage afterwards. A
never written file is passed over; any other is sent and marked closed. -/
def readNSection (st : InfoStorage) (n : NodeId) : Option (Node × InfoStorage) := do
  let node ← st.heap n
  if node.modified = -1 then some (node, st)
  else some (node, st.modify n (fun x => { x with fdClientId := -1 }))

end FileStorage.Storage

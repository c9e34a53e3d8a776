import FileStorage.Lib.Dialogue
import FileStorage.Lib.Text
import FileStorage.Wire.Model
import Mathlib.Data.List.DropRight

/-!
# The client

`main` in `client.c` works through the requests of its command line and then
closes the connection. Its questions are the calls of the API, each of which
sends one message and waits for the answer, and what it asks the file system. Both
are answered from outside, the calls by the integer that the API function
returns.

A path that is asked for is a list of bytes, and a directory is given by its
`Listing`: the entries in the order of `readdir`, with the listing of each
subdirectory. A run visits no more of it than it comes to.

`exit` and what has no defined result end the process (`Dialogue.exit`); `timer`
and the messages on the terminal are nothing.
-/

namespace FileStorage.Client

open FileStorage.Lib
open FileStorage.Wire (toInt32 comma)

/-- The flags of `openFile`: `O_OPEN` is 0 and `O_CREATE` is 1. -/
inductive Flag where
  | openIt
  | create
  deriving DecidableEq

/-- The entries of a directory, in the order of `readdir`. -/
inductive Listing where
  | nil
  /-- An entry that is not a directory. -/
  | file (name : Bytes) (rest : Listing)
  /-- A subdirectory with its own entries. -/
  | dir (name : Bytes) (sub rest : Listing)
  /-- `.` or `..`. -/
  | dots (name : Bytes) (rest : Listing)

/-- The questions of the client. -/
inductive Query where
  | openFile (pathname : Bytes) (flag : Flag)
  | readFile (pathname : Bytes)
  | readNFiles (n : Int) (dirname : Option Bytes)
  | appendToFile (pathname content : Bytes)
  | closeFile (pathname : Bytes)
  | closeConnection (sockname : Bytes)
  /-- `stat` finds a directory. -/
  | isDir (pathname : Bytes)
  /-- `find_absolute_path`; `none` is the return value -1. -/
  | findAbsolutePath (pathname : Bytes)
  /-- The bytes of a file; `none` if `fopen` fails. -/
  | content (pathname : Bytes)
  /-- Write a file that was read from the server; `false` if `fopen` fails. -/
  | save (filename content : Bytes)
  /-- `opendir` and `readdir`; `none` if `opendir` fails. -/
  | listing (dirname : Bytes)

/-- The answers. `readFile` returns the content as well. -/
def Query.Answer : Query → Type
  | openFile _ _ => Int
  | readFile _ => Int × Bytes
  | readNFiles _ _ => Int
  | appendToFile _ _ => Int
  | closeFile _ => Int
  | closeConnection _ => Int
  | isDir _ => Bool
  | findAbsolutePath _ => Option Bytes
  | content _ => Option Bytes
  | save _ _ => Bool
  | listing _ => Option Listing

abbrev Program (α : Type) : Type := Dialogue Query Query.Answer α

/-! ## The calls -/

def openFile (pathname : Bytes) (flag : Flag) : Program Int :=
  Dialogue.query (Query.openFile pathname flag)

def readFile (pathname : Bytes) : Program (Int × Bytes) := Dialogue.query (Query.readFile pathname)

def readNFiles (n : Int) (dirname : Option Bytes) : Program Int :=
  Dialogue.query (Query.readNFiles n dirname)

def appendToFile (pathname content : Bytes) : Program Int :=
  Dialogue.query (Query.appendToFile pathname content)

def closeFile (pathname : Bytes) : Program Int := Dialogue.query (Query.closeFile pathname)

def closeConnection (sockname : Bytes) : Program Int := Dialogue.query (Query.closeConnection sockname)

def isDir (pathname : Bytes) : Program Bool := Dialogue.query (Query.isDir pathname)

def findAbsolutePath (pathname : Bytes) : Program (Option Bytes) :=
  Dialogue.query (Query.findAbsolutePath pathname)

def readContent (pathname : Bytes) : Program (Option Bytes) := Dialogue.query (Query.content pathname)

def saveContent (filename content : Bytes) : Program Bool :=
  Dialogue.query (Query.save filename content)

def listDirectory (dirname : Bytes) : Program (Option Listing) :=
  Dialogue.query (Query.listing dirname)

/-! ## Writing -/

/-- `openAppendClose`, after `openFile` has returned 0. -/
def appendClose (pathname : Bytes) : Program Int := do
  match ← readContent pathname with
  | none => .exit
  | some buf =>
    let appended ← appendToFile pathname buf
    if appended = -1 then return -1
    let closed ← closeFile pathname
    if closed = -1 then return -1
    return 0

def openAppendClose (pathname : Bytes) : Program Int := do
  let created ← openFile pathname .create
  if created ≠ 0 then
    let opened ← openFile pathname .openIt
    if opened = -1 then return -1
    appendClose pathname
  else appendClose pathname

def BUFSIZE : Nat := 256

/-- `"/"` and `"."`. -/
def slash : UInt8 := 47

def dot : UInt8 := 46

/-- The text ends with a point. -/
def isdot (dir : Bytes) : Bool := dir.getLast? == some dot

def nextPath (dirname name : Bytes) : Bytes := dirname ++ slash :: name.take BUFSIZE

/-- `*nfiles` and `*totfile`. -/
structure Count where
  nfiles : Int
  totfile : Int

/-- The number of files is known, and none is left. -/
def Count.spent (c : Count) : Bool := decide (c.nfiles < 1) && decide (c.totfile < 0)

/-- A file was written. -/
def Count.next (c : Count) : Count :=
  if c.totfile < 0 then { c with nfiles := c.nfiles - 1 } else c

section

variable {Q : Type} {A : Q → Type}

/-- `recDirectory` on the entries that `readdir` still has; `write` is what it
does with the path of a file. -/
def recDirectory (write : Bytes → Dialogue Q A Int) (dirname : Bytes) :
    Listing → Count → Dialogue Q A Count
  | .nil, c => pure c
  | .file name rest, c =>
    if c.spent then pure c
    else do
      let _ ← write (nextPath dirname name)
      recDirectory write dirname rest c.next
  | .dir name sub rest, c =>
    if c.spent then pure c
    else if isdot (nextPath dirname name) then recDirectory write dirname rest c
    else do
      let c ← recDirectory write (nextPath dirname name) sub c
      recDirectory write dirname rest c
  | .dots name rest, c =>
    if c.spent then pure c
    else if isdot (nextPath dirname name) then recDirectory write dirname rest c
    else .exit

end

/-- A file that `recDirectory` has come to. -/
def writeEntry (nextPath : Bytes) : Program Int := do
  match ← findAbsolutePath nextPath with
  | none => .exit
  | some dirAbspath => openAppendClose dirAbspath

/-! ## The requests of the command line -/

/-- `command_t`, by its option. -/
inductive Command where
  | w (param : Bytes)
  | W (param : Bytes)
  | r (param : Bytes) (dirname : Option Bytes)
  | R (param : Option Bytes) (dirname : Option Bytes)

/-- `nb_request`, after the command line was read. -/
structure NbRequest where
  charH : Bool
  charF : Bytes
  requests : List Command

/-- `"="`. -/
def equals : UInt8 := 61

/-- `strtok_r` with the delimiters `",="`. -/
def strtokPair (s : Bytes) : Option Bytes × Bytes :=
  let sep (c : UInt8) : Bool := c == comma || c == equals
  let s := s.dropWhile sep
  if s = [] then (none, [])
  else (some (s.takeWhile fun c => !sep c), (s.dropWhile fun c => !sep c).drop 1)

/-- The count that `-w` asks for: what stands behind `n=`, 0 without it; `none`
is the call `strtol(NULL, ..)`. -/
def parseCount (tmp : Bytes) : Option Int :=
  match strtokPair tmp with
  | (none, _) => some 0
  | (some _, tmp) => (strtokPair tmp).1.map fun token => max (strtol token) 0

/-- `-w dirname[,n=0]` -/
def requestWriteDir (param : Bytes) : Program PUnit :=
  match strtokPair param with
  -- `stat(NULL, ..)` fails, as it does for a directory that is not there
  | (none, _) => return ⟨⟩
  | (some dirname, tmp) => do
    if ← isDir dirname then
      match parseCount tmp with
      | none => .exit
      | some nfile =>
        match ← listDirectory dirname with
        | none => .exit
        | some entries =>
          let _ ← recDirectory writeEntry dirname entries ⟨nfile, if nfile > 0 then -1 else 0⟩
          return ⟨⟩

/-- `-W file1[,file2]` -/
def requestWrite (token : Bytes) : Program PUnit := do
  match ← findAbsolutePath token with
  | none => return ⟨⟩
  | some absPath =>
    let _ ← openAppendClose absPath
    return ⟨⟩

/-- `basename`: what stands behind the last slash, those at the end left out;
`none` is `NULL`. -/
def basename : Option Bytes → Bytes
  | none => [dot]
  | some path =>
    if path = [] then [dot]
    else if path.rdropWhile (· == slash) = [] then [slash]
    else (path.rdropWhile (· == slash)).rtakeWhile (· != slash)

/-- The file that was read is saved in the directory. -/
def saveRead (token dirname buffer : Bytes) : Program PUnit := do
  match ← findAbsolutePath dirname with
  | none => return ⟨⟩
  | some dirnameAbsPath =>
    if ← saveContent (dirnameAbsPath ++ slash :: basename (some token)) buffer then return ⟨⟩
    else .exit

/-- One file of `-r`; `dirname` is the directory to save in, if there is one. -/
def requestRead (charF : Bytes) (dirname : Option Bytes) (token : Bytes) : Program PUnit := do
  match ← findAbsolutePath token with
  | none => return ⟨⟩
  | some absPath =>
    let opened ← openFile absPath .openIt
    if opened = 0 then
      let (read, buffer) ← readFile absPath
      if read ≠ -1 then
        match dirname with
        | none => pure ⟨⟩
        | some dirname => saveRead token dirname buffer
      let closed ← closeFile absPath
      if closed = -1 then
        let _ ← closeConnection charF
      return ⟨⟩

/-- `-r file1[,file2] [-d dirname]` -/
def requestReads (charF param : Bytes) (dirname : Option Bytes) : Program PUnit := do
  let dirname ← match dirname with
    | none => pure none
    | some d => do pure (if ← isDir d then some d else none)
  forM (tokens comma param) (requestRead charF dirname)

/-- The number of `-R`: what stands behind the first `=`. -/
def parseN (param : Bytes) : Option Int :=
  (strtok equals (strtok equals param).2).1.map fun token => max (toInt32 (strtol token)) 0

/-- `-R [n=0] [-d dirname]` -/
def requestReadN (param dirname : Option Bytes) : Program PUnit :=
  match (match param with
    | none => some 0
    | some param => parseN param) with
  | none => .exit
  | some n => do
    let _ ← readNFiles n dirname
    return ⟨⟩

def request (charF : Bytes) : Command → Program PUnit
  | .w param => requestWriteDir param
  | .W param => forM (tokens comma param) requestWrite
  | .r param dirname => requestReads charF param dirname
  | .R param dirname => requestReadN param dirname

/-- The loop over the requests, which `-h` leaves out. -/
def requests (nbRequest : NbRequest) : Program PUnit :=
  if nbRequest.charH then pure ⟨⟩
  else forM nbRequest.requests (request nbRequest.charF)

/-- `main`, from the open connection on. -/
def clientMain (nbRequest : NbRequest) : Program Int := do
  requests nbRequest
  let _ ← closeConnection nbRequest.charF
  return 0

end FileStorage.Client

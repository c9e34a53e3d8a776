import FileStorage.Lib.Text
import FileStorage.Worker.Model

/-!
# Messages on a socket

What the client API writes and the server parses, and back: `sendMsg`,
`sendMsg_File_Content`, `recievedMsg` and `receivedMsg_File_Content` of
`includes/util.c`, `readn` of `includes/conn.c`, the request parsing of `main`
and `threadF`, the answers of `threadF`, and the client functions of
`includes/API.c`.

Every text goes out as a `size_t` length and then the text; the content of a
file follows its text without a length of its own, because the text ends with
the size in decimal.

Conventions:
- a `Conn` is the stream that the peer has written and nobody has read yet,
  and a schedule that says how the kernel splits the next reads. `writen`
  writes all it is given, so a writer is the list of its bytes.
- the two ends of a local socket agree about the bytes of a `size_t`.
- `Limits` says which announced sizes `calloc` has a buffer for and `read`
  accepts; where the server is not given any, it has `Limits.ample`, and so have
  the clients. What an end of file leaves unread in a buffer is zero, as `calloc`
  and `memset` made it.
- a C string is the bytes before its NUL, so the texts a program holds are
  NUL-free; `strtok_r` on a buffer is `strtok` on the string in it.
- what is only printed is left out, and here also the directory that
  `readNFiles` saves into.
-/

namespace FileStorage.Wire

open FileStorage.Lib FileStorage.Worker

/-- `","`. -/
def comma : UInt8 := 44

theorem isDigit_comma : isDigit comma = false := rfl

/-! ## Reading -/

/-- What one call of `read` does: it is interrupted, or it delivers at most
`n + 1` bytes. -/
inductive Read where
  | eintr
  | upTo (n : Nat)
  deriving DecidableEq

structure Conn where
  sched : List Read
  stream : Bytes
  deriving DecidableEq

/-- Why a computation has no result: it still waits for `read`, the process has
called `exit`, or it has used a pointer that is `NULL`. -/
inductive Stop where
  | blocked
  | exited
  | undefined
  deriving DecidableEq

/-- The loop of `readn`: the bytes read, and whether it met the end of file. -/
def readLoop : List Read → Bytes → Nat → Option (Bytes × Bool × Conn)
  | sched, stream, 0 => some ([], false, ⟨sched, stream⟩)
  | [], _, _ + 1 => none
  | .eintr :: sched, stream, left + 1 => readLoop sched stream (left + 1)
  | .upTo n :: sched, stream, left + 1 =>
    let r := min (min (n + 1) (left + 1)) stream.length
    if r = 0 then some ([], true, ⟨sched, stream⟩)
    else
      match readLoop sched (stream.drop r) (left + 1 - r) with
      | none => none
      | some (buf, eof, c) => some (stream.take r ++ buf, eof, c)

/-- The conversion to `int`. -/
def toInt32 (n : Int) : Int := Int.bmod n (2 ^ 32)

/-- `readn`: the returned value and the bytes read. -/
def readn (c : Conn) (size : Nat) : Option (Int × Bytes × Conn) :=
  match readLoop c.sched c.stream size with
  | none => none
  | some (buf, eof, c) => some (if eof then 0 else toInt32 size, buf, c)

/-- `CHECK_EQ_EXIT("readn", readn(..), -1)` into a zeroed buffer. -/
def readnExit (c : Conn) (size : Nat) : Except Stop (Bytes × Conn) :=
  match readn c size with
  | none => .error .blocked
  | some (ret, buf, c) =>
    if ret = -1 then .error .exited
    else .ok (buf ++ List.replicate (size - buf.length) 0, c)

/-- What a process can have for a size that its peer announces: the sizes that `calloc`
finds memory for, and those that `read` takes for the size of a buffer. -/
structure Limits where
  grants : Nat → Bool
  reads : Nat → Bool

/-- Whatever is announced. -/
def Limits.ample : Limits where
  grants _ := true
  reads _ := true

/-- `calloc` has a byte more than the size, as a `size_t`, and the first `read`, if there
is one, takes the size. -/
def Limits.allow (lim : Limits) (size : Nat) : Bool :=
  lim.grants ((size + 1) % 2 ^ 64) && (size == 0 || lim.reads size)

/-- `calloc` and `readn` of a size that the peer has announced. Each of them ends the
process when it fails. -/
def receive (c : Conn) (size : Nat) (lim : Limits) : Except Stop (Bytes × Conn) :=
  if lim.allow size then readnExit c size else .error .exited

@[simp] theorem allow_ample (size : Nat) : Limits.ample.allow size = true := by
  simp [Limits.allow, Limits.ample]

@[simp] theorem receive_ample (c : Conn) (size : Nat) :
    receive c size .ample = readnExit c size := if_pos (allow_ample size)

/-- `recievedMsg`: the buffer, with the NUL that `calloc` put behind the text. -/
def recievedMsg (c : Conn) (lim : Limits := .ample) : Except Stop (Bytes × Conn) := do
  let (len, c) ← readnExit c 8
  let (str, c) ← receive c (readLE len) lim
  return (str ++ [0], c)

/-! ## Writing -/

/-- `sendMsg`: the length is added up apart from the text. -/
def sendMsg (apiId : Bytes) (arg1 arg2 : Option Bytes) : Bytes :=
  let len := apiId.length +
    (match arg1 with
      | none => 0
      | some a => a.length + if arg2.isSome then 1 else 0) +
    (match arg2 with
      | none => 0
      | some b => b.length)
  let str := apiId.take 3 ++
    (match arg1 with
      | none => []
      | some a => a ++ if arg2.isSome then [comma] else []) ++
    arg2.getD []
  leBytes 8 len ++ (str ++ List.replicate (len + 2 - str.length) 0).take len

/-- `sendMsg_File_Content`: `arg2` is the size of `arg3` in decimal. -/
def sendMsgFileContent (apiId arg1 arg2 arg3 : Bytes) : Bytes :=
  sendMsg apiId (some arg1) (some arg2) ++ arg3.take (strtol arg2).toNat

/-! ## Requests -/

inductive OpenFlag where
  | create
  | open
  deriving DecidableEq

/-- A call of the client API that sends a request. -/
inductive Call where
  | closeConnection (sockname : Bytes)
  | openFile (pathname : Bytes) (flags : OpenFlag)
  | readFile (pathname : Bytes)
  | readNFiles (n : Nat)
  | appendToFile (pathname buf : Bytes)
  | closeFile (pathname : Bytes)
  deriving DecidableEq

/-- The bytes that the call writes. -/
def Call.bytes : Call → Bytes
  | .closeConnection sockname => sendMsg [49, comma] (some sockname) none
  | .openFile pathname .create => sendMsg [50, comma] (some pathname) (some [49])
  | .openFile pathname .open => sendMsg [50, comma] (some pathname) (some [48])
  | .readFile pathname => sendMsg [51, comma] (some pathname) none
  | .readNFiles n => sendMsg [52, comma] (some (decimal n)) none
  | .appendToFile pathname buf =>
    sendMsgFileContent [53, comma] pathname (decimal buf.length) buf
  | .closeFile pathname => sendMsg [54, comma] (some pathname) none

/-- `struct sms_request`, the fields that come from the message. -/
structure SmsRequest where
  apiId : Int
  sizeBuf : Int
  smsInfo : Bytes
  smsContent : Option Bytes

/-- The client branch of `main` between the message and `push`. -/
def parseSms (sms : Bytes) (c : Conn) (lim : Limits := .ample) :
    Except Stop (SmsRequest × Conn) :=
  match strtok comma (cstr sms) with
  | (none, _) => .error .undefined
  | (some token, tmp) =>
    let apiId := strtol token
    if apiId = 5 then
      -- `sms_info` was set before this call, which cuts the string it points to
      let sz := strtol (strtok comma tmp).2
      if sz < -1 then .error .exited
      else if sz = -1 then .error .undefined
      else do
        let (content, c) ← receive c sz.toNat lim
        return (⟨apiId, sz, strtokLeft comma tmp, some (content ++ [0])⟩, c)
    else .ok (⟨apiId, 0, tmp, none⟩, c)

/-- The client branch of `main`, up to `push`. -/
def parseRequest (c : Conn) (lim : Limits := .ample) : Except Stop (SmsRequest × Conn) := do
  let (sms, c) ← recievedMsg c lim
  parseSms sms c lim

/-- What `threadF` reads out of the request before it turns to the storage. An
unknown `api_id` is no operation. -/
def threadFOp (rq : SmsRequest) : Except Stop (Option Op) :=
  if rq.apiId = 1 then
    match strtok comma rq.smsInfo with
    | (none, _) => .error .undefined
    | (some token, _) => .ok (some (.closeConnection token))
  else if rq.apiId = 2 then
    match strtok comma rq.smsInfo with
    | (none, _) => .error .undefined
    | (some pathfile, tmp) =>
      match strtok comma tmp with
      | (none, _) => .error .undefined
      | (some token, _) => .ok (some (.openFile pathfile token))
  else if rq.apiId = 3 then
    match strtok comma rq.smsInfo with
    | (none, _) => .error .undefined
    | (some token, _) => .ok (some (.readFile token))
  else if rq.apiId = 4 then .ok (some (.readNFiles (strtol rq.smsInfo)))
  else if rq.apiId = 5 then
    match strtok comma rq.smsInfo with
    | (none, _) => .error .undefined
    | (some token, _) =>
      .ok (some (.appendToFile token ((rq.smsContent.getD []).take rq.sizeBuf.toNat)))
  else if rq.apiId = 6 then .ok (some (.closeFile rq.smsInfo))
  else .ok none

/-- One request from the stream, as far as the server reads it. -/
def serve (c : Conn) (lim : Limits := .ample) : Except Stop (Option Op × Conn) := do
  let (rq, c) ← parseRequest c lim
  let op ← threadFOp rq
  return (op, c)

/-- Several requests one after another. -/
def serveAll : Nat → Conn → Except Stop (List (Option Op) × Conn)
  | 0, c => .ok ([], c)
  | n + 1, c => do
    let (op, c) ← serve c
    let (ops, c) ← serveAll n c
    return (op :: ops, c)

/-! ## Answers -/

/-- The text answers of `threadF`; in the last one the length allows for two
more bytes than the text has. -/
def answerMsg : Answer → Bytes
  | .ko => leBytes 8 2 ++ [45, 49]
  | .ok => leBytes 8 1 ++ [48]
  | .okRemoved rmPath =>
    let len := 1 + 1 + (rmPath.length + 1)
    leBytes 8 len ++ ([48] ++ rmPath ++ List.replicate (len - (1 + rmPath.length)) 0)

/-- A file as READ and READ N send it. -/
structure Frame where
  pathname : Bytes
  content : Bytes
  deriving DecidableEq

def Frame.bytes (f : Frame) : Bytes :=
  sendMsgFileContent [49, comma] f.pathname (decimal f.content.length) f.content

/-- The out parameters of `receivedMsg_File_Content`. -/
structure FileContent where
  check : Int
  pathname : Option Bytes
  sizeBuf : Nat
  smsContent : Option Bytes
  deriving DecidableEq

def receivedMsgFileContent (c : Conn) : Except Stop (FileContent × Conn) := do
  let (smsInfo, c) ← recievedMsg c
  match strtok comma (cstr smsInfo) with
  | (none, _) => throw .undefined
  | (some token, tmp) =>
    if strncmpEq token [49] 1 then
      let (pathname, tmp) := strtok comma tmp
      match strtok comma tmp with
      | (none, _) => throw .undefined
      | (some token, _) =>
        let sizeByte := toInt32 (strtol token)
        if sizeByte < 0 then throw .exited
        else
          let (content, c) ← readnExit c sizeByte.toNat
          return (⟨1, pathname, sizeByte.toNat, some content⟩, c)
    else if strncmpEq token [48] 1 then return (⟨0, none, 0, none⟩, c)
    else return (⟨-1, none, 0, none⟩, c)

/-- `openFile` after its request: the returned value and the removed files it
prints. The comma that `strtok_r` has overwritten ends the number anyway. -/
def openFileAnswer (c : Conn) : Except Stop ((Int × List Bytes) × Conn) := do
  let (smsRead, c) ← recievedMsg c
  let s := cstr smsRead
  return ((toInt32 (strtol s), tokens comma (strtok comma s).2), c)

/-- `appendToFile` after its request. -/
def appendToFileAnswer (c : Conn) : Except Stop ((Int × List Bytes) × Conn) := do
  let (smsRecieved, c) ← recievedMsg c
  match strtok comma (cstr smsRecieved) with
  | (none, _) => throw .undefined
  | (some token, tmp) =>
    if strtol token = 0 then return ((0, tokens comma tmp), c)
    else return ((-1, []), c)

/-- `readFile` after its request: the returned value, the size and the content. -/
def readFileAnswer (c : Conn) : Except Stop ((Int × Nat × Option Bytes) × Conn) := do
  let (r, c) ← receivedMsgFileContent c
  if r.check = 0 ∨ r.check = 1 then return ((0, r.sizeBuf, r.smsContent), c)
  else return ((-1, r.sizeBuf, r.smsContent), c)

/-- The loop of `readNFiles`: the returned value and the files received. `none`
is a pathname that did not come. -/
def readNFilesAnswer : Nat → Conn →
    Except Stop ((Int × List (Option Bytes × Nat × Option Bytes)) × Conn)
  | 0, _ => .error .blocked
  | fuel + 1, c => do
    let (r, c) ← receivedMsgFileContent c
    if r.check = 0 then return ((0, []), c)
    else if r.check = -1 then return ((-1, []), c)
    else
      let ((ret, files), c) ← readNFilesAnswer fuel c
      return ((ret, (r.pathname, r.sizeBuf, r.smsContent) :: files), c)

/-- `closeFile` after its request. -/
def closeFileAnswer (c : Conn) : Except Stop (Int × Conn) := do
  let (sms, c) ← recievedMsg c
  return (if strtol (cstr sms) = -1 then -1 else 0, c)

/-- `closeConnection` after its request. -/
def closeConnectionAnswer (c : Conn) : Except Stop (Int × Conn) := do
  let (checkStr, c) ← recievedMsg c
  return (toInt32 (strtol (cstr checkStr)), c)

end FileStorage.Wire

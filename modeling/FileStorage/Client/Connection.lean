import FileStorage.Client.Model

/-!
# The connection of the client

`closeConnection` closes the descriptor `fd_c` behind the answer. A call of the
API after it writes to a closed descriptor: `writen` returns -1, and
`CHECK_EQ_EXIT` in `sendMsg` ends the process. (No file that `main` has open at a
call is open for writing, so no other descriptor takes the place of `fd_c`.)

The branch of `-r` that closes the connection when `closeFile` has failed goes on
with the next file. A run through it does not come to its end, since at least
the `closeConnection` at the end of `main` is still to come.
-/

namespace FileStorage.Client

open FileStorage.Lib Dialogue

/-- The calls of the API. -/
def Query.isMessage : Query → Bool
  | openFile _ _ => true
  | readFile _ => true
  | readNFiles _ _ => true
  | appendToFile _ _ => true
  | closeFile _ => true
  | closeConnection _ => true
  | isDir _ => false
  | findAbsolutePath _ => false
  | content _ => false
  | save _ _ => false
  | listing _ => false

/-- `fd_c` -/
inductive Descriptor where
  | opened
  | closed
  deriving DecidableEq

/-- What a question makes of `fd_c`; `none` is the failing `writen`. -/
def Descriptor.next (fd : Descriptor) (q : Query) : Option Descriptor :=
  match fd with
  | opened =>
    match q with
    | .closeConnection _ => some closed
    | _ => some opened
  | closed => if q.isMessage then none else some closed

/-- `main` with its connection. -/
def clientProcess (nbRequest : NbRequest) : Program Int :=
  (clientMain nbRequest).within Descriptor.next .opened

/-- The messages of a run. -/
def messages (x : List (Exchange Query Query.Answer)) : List Query :=
  (x.map (·.1)).filter Query.isMessage

theorem messages_append (x y : List (Exchange Query Query.Answer)) :
    messages (x ++ y) = messages x ++ messages y := by
  unfold messages
  rw [List.map_append, List.filter_append]

/-- Behind a `closeConnection` the descriptor is closed. -/
theorem closed_of_mem {qs : List Query} {sockname : Bytes} (hq : .closeConnection sockname ∈ qs)
    {fd fd' : Descriptor} (h : qs.foldlM Descriptor.next fd = some fd') : fd' = .closed := by
  have hstays : ∀ {qs : List Query} {fd' : Descriptor},
      qs.foldlM Descriptor.next .closed = some fd' → fd' = .closed := by
    intro qs
    induction qs with
    | nil =>
      rintro fd' ⟨⟩
      rfl
    | cons q qs ih =>
      intro fd' h
      rw [List.foldlM_cons] at h
      obtain ⟨fd₁, hq, h⟩ := Option.bind_eq_some_iff.mp h
      have hstep : (if q.isMessage then none else some Descriptor.closed) = some fd₁ := hq
      split at hstep
      · cases hstep
      · cases hstep
        exact ih h
  induction qs generalizing fd with
  | nil => cases hq
  | cons q qs ih =>
    rw [List.foldlM_cons] at h
    obtain ⟨fd₁, hnext, h⟩ := Option.bind_eq_some_iff.mp h
    rcases List.mem_cons.mp hq with rfl | hq
    · cases fd with
      | opened =>
        cases hnext
        exact hstays h
      | closed => cases hnext
    · exact ih hq h

/-- `main` ends with `closeConnection`. -/
theorem plays_clientMain {nbRequest : NbRequest} {x : List (Exchange Query Query.Answer)} {a : Int}
    (h : Plays (clientMain nbRequest) x a) :
    ∃ y r, x = y ++ [⟨.closeConnection nbRequest.charF, r⟩] := by
  obtain ⟨y, z, u, rfl, -, hz⟩ := plays_bind.mp h
  obtain ⟨r, w, rfl, hw⟩ := plays_query.mp hz
  obtain ⟨rfl, -⟩ := plays_pure.mp hw
  exact ⟨y, r, rfl⟩

/-- In every run to the end, the only `closeConnection` is the last message. -/
theorem clientProcess_closesOnce {nbRequest : NbRequest}
    {x : List (Exchange Query Query.Answer)} {a : Int} (h : Plays (clientProcess nbRequest) x a) :
    ∃ qs, messages x = qs ++ [.closeConnection nbRequest.charF] ∧
      ∀ sockname, .closeConnection sockname ∉ qs := by
  obtain ⟨hmain, fd, hfd⟩ := plays_within.mp h
  obtain ⟨y, r, rfl⟩ := plays_clientMain hmain
  refine ⟨messages y, messages_append _ _, fun sockname hmem => ?_⟩
  rw [List.map_append, List.foldlM_append] at hfd
  obtain ⟨fd₁, hy, hlast⟩ := Option.bind_eq_some_iff.mp hfd
  -- after another one the last `closeConnection` would not be written
  have hclosed : fd₁ = .closed := closed_of_mem (List.mem_filter.mp hmem).1 hy
  subst hclosed
  cases hlast

/-- `-w , -r a -R n=1`. -/
def threeRequests : NbRequest :=
  ⟨false, [115], [.w [44], .r [97] none, .R (some [110, 61, 49]) none]⟩

/-- What `threeRequests` asks up to the answer to its `closeFile`. -/
def upToClose (closed : Int) : List (Exchange Query Query.Answer) :=
  [⟨.findAbsolutePath [97], some [47, 97]⟩, ⟨.openFile [47, 97] .openIt, (0 : Int)⟩,
    ⟨.readFile [47, 97], ((0, [120]) : Int × Bytes)⟩, ⟨.closeFile [47, 97], closed⟩]

/-- The last two messages of `threeRequests`. -/
def fromReadN : List (Exchange Query Query.Answer) :=
  [⟨.readNFiles 1 none, (-1 : Int)⟩, ⟨.closeConnection [115], (0 : Int)⟩]

/-- `threeRequests` without `-w`, whose directory has no name. -/
theorem clientMain_threeRequests : clientMain threeRequests =
    ((forM [[97]] (requestRead [115] none) >>= fun _ =>
      forM [Command.R (some [110, 61, 49]) none] (request [115])) >>= fun _ =>
        closeConnection [115] >>= fun _ => pure 0) := by
  have htokens : tokens Wire.comma [97] = [[97]] := by
    rw [tokens_eq (strtok_word (by decide) (by decide)), tokens_nil]
  rw [← htokens]
  rfl

/-- Where `closeFile` is answered 0 the connection is closed once, behind the last
request. Where it is refused, `main` alone would go on with `-R` and close the
connection twice; with its connection it does not come to its end. -/
theorem clientProcess_closesOnce_requests :
    (∃ qs, messages (upToClose 0 ++ fromReadN) = qs ++ [.closeConnection [115]] ∧
      ∀ sockname, .closeConnection sockname ∉ qs) ∧
    Plays (clientMain threeRequests)
      (upToClose (-1) ++ ⟨.closeConnection [115], (0 : Int)⟩ :: fromReadN) 0 ∧
    ¬ Plays (clientProcess threeRequests)
      (upToClose (-1) ++ ⟨.closeConnection [115], (0 : Int)⟩ :: fromReadN) 0 := by
  have hmain : Plays (clientMain threeRequests) (upToClose 0 ++ fromReadN) 0 := by
    rw [clientMain_threeRequests]
    exact .ask (.ask (.ask (.ask (.ask (.ask .done)))))
  have hrun : Plays (clientProcess threeRequests) (upToClose 0 ++ fromReadN) 0 :=
    plays_within.mpr ⟨hmain, .closed, rfl⟩
  refine ⟨clientProcess_closesOnce hrun, ?_, fun hrefused => ?_⟩
  · rw [clientMain_threeRequests]
    exact .ask (.ask (.ask (.ask (.ask (.ask (.ask .done))))))
  · obtain ⟨qs, hqs, hnone⟩ := clientProcess_closesOnce hrefused
    have hlast : messages (upToClose (-1) ++ ⟨.closeConnection [115], (0 : Int)⟩ :: fromReadN) =
        [.openFile [47, 97] .openIt, .readFile [47, 97], .closeFile [47, 97],
          .closeConnection [115], .readNFiles 1 none] ++ [.closeConnection [115]] := rfl
    obtain ⟨rfl, -⟩ := List.append_inj' (hlast.symm.trans hqs) rfl
    exact hnone [115] (by simp)

end FileStorage.Client

import FileStorage.Lib.Keyed
import FileStorage.Lib.Text
import FileStorage.Worker.Handles

/-!
# What the server is for

The service that the handlers implement, without nodes, links and locks: a
bounded cache of files, newest first, in which a name stands for at most one
file. `serve` says what one request does to the files and what is sent back.

* A file is open by one client or closed. OPEN takes a closed file, or creates
  one; only the client that has a file open reads, appends to and closes it.
* When the slots are taken, the oldest file that is closed and was written makes
  room for a new one. When bytes lack, as few such files as possible go, the
  oldest ones first. The names of the files that went are in the answer.
* READ N sends the newest written files, and closes them.
* A file that would outgrow the whole cache with its first bytes is deleted.

`Cache` carries what every request keeps: the names differ, the bytes fit into
the memory and the files into the slots (`bounded_serve`).
-/

namespace FileStorage.Service

open FileStorage.Lib FileStorage.Storage FileStorage.Worker

/-- A file as the clients know it. -/
structure Entry where
  pathname : Bytes
  owner : Option Nat
  written : Bool
  content : Bytes
  deriving DecidableEq

/-- What does not change. -/
structure Limits where
  ram : Int
  slots : Int
  sockname : Bytes

/-- What a client is sent. `bye` is the answer that ends a connection. -/
inductive Output where
  | file (pathname : Bytes) (size : Int) (content : Bytes)
  | answer (a : Answer)
  | bye (a : Answer)
  deriving DecidableEq

namespace Entry

/-- A new file, open by the client that creates it. -/
def create (p : Bytes) (fd : Nat) : Entry := ⟨p, some fd, false, []⟩

/-- The file, open by a client. -/
def openBy (fd : Nat) (e : Entry) : Entry := { e with owner := some fd }

/-- The file, open by nobody. -/
def close (e : Entry) : Entry := { e with owner := none }

/-- The file with a content behind its own. -/
def extend (content : Bytes) (e : Entry) : Entry :=
  { e with content := e.content ++ content, written := true }

/-- The file may be evicted. -/
def removable (e : Entry) : Bool := e.owner.isNone && e.written

/-- Its size in bytes. -/
def size (e : Entry) : Int := e.content.length

/-- The file as it is sent. -/
def output (e : Entry) : Output := .file e.pathname e.size e.content

end Entry

/-- The bytes of some files. -/
def bytesOf (l : List Entry) : Int := (l.map Entry.size).sum

/-- The names of the files. -/
def namesOf (l : List Entry) : List Bytes := l.map Entry.pathname

/-- The files that may be evicted, oldest first. -/
def removables (l : List Entry) : List Entry := l.reverse.filter Entry.removable

/-! ## The requests -/

/-- A new file takes a free slot, or that of the oldest file that may go. -/
def createFile (lim : Limits) (fd : Nat) (p : Bytes) (l : List Entry) : List Entry × Answer :=
  if (l.length : Int) < lim.slots then (Entry.create p fd :: l, .okRemoved [])
  else
    match (removables l).head? with
    | none => (l, .ko)
    | some v =>
      (Entry.create p fd :: without Entry.pathname [v.pathname] l,
        .okRemoved (joined 44 [v.pathname]))

/-- OPEN: create the file or open it, as the flag says. -/
def openFile (lim : Limits) (fd : Nat) (p flag : Bytes) (l : List Entry) : List Entry × Answer :=
  match lookup Entry.pathname p l with
  | some e =>
    if mayOpen flag = true ∧ e.owner = none then
      (edit Entry.pathname [p] (Entry.openBy fd) l, .ok)
    else (l, .ko)
  | none => if mayCreate flag = false then (l, .ko) else createFile lim fd p l

/-- READ FILE: the file to its owner, or a refusal. -/
def readFile (fd : Nat) (p : Bytes) (l : List Entry) : Output :=
  match lookup Entry.pathname p l with
  | some e => if e.owner = some fd then e.output else .answer .ko
  | none => .answer .ko

/-- The files that READ N sends. -/
def wantedFiles (n : Int) (l : List Entry) : List Entry :=
  (l.filter Entry.written).take (if n = 0 then l.length else n.toNat)

/-- READ N sends the newest files that were written, and closes them. -/
def readNFiles (n : Int) (l : List Entry) : List Entry × List Output :=
  let sent := wantedFiles n l
  (edit Entry.pathname (namesOf sent) Entry.close l,
    sent.map Entry.output ++ [.answer (if sent = [] then .ko else .ok)])

/-- The files that go when `content` is appended. -/
def evicted (lim : Limits) (content : Bytes) (l : List Entry) : List Entry :=
  fewest Entry.size (content.length - (lim.ram - bytesOf l)) (removables l)

/-- The owner of a file appends to it. -/
def extendFile (lim : Limits) (e : Entry) (content : Bytes) (l : List Entry) :
    List Entry × Answer :=
  if lim.ram < content.length ∧ e.written = false then
    (without Entry.pathname [e.pathname] l, .ko)
  else
    let out := namesOf (evicted lim content l)
    let left := without Entry.pathname out l
    if bytesOf left + content.length ≤ lim.ram then
      (edit Entry.pathname [e.pathname] (Entry.extend content) left, .okRemoved (joined 44 out))
    else (l, .ko)

/-- APPEND: the owner's file grows, if room can be made. -/
def appendToFile (lim : Limits) (fd : Nat) (p content : Bytes) (l : List Entry) :
    List Entry × Answer :=
  match lookup Entry.pathname p l with
  | none => (l, .ko)
  | some e => if e.owner = some fd then extendFile lim e content l else (l, .ko)

/-- CLOSE FILE: the owner gives the file back. -/
def closeFile (fd : Nat) (p : Bytes) (l : List Entry) : List Entry × Answer :=
  match lookup Entry.pathname p l with
  | some e =>
    if e.owner = some fd then (edit Entry.pathname [p] Entry.close l, .ok) else (l, .ko)
  | none => (l, .ko)

/-- CLOSE CONNECTION is answered by whether the name is that of the socket. -/
def closeConnection (lim : Limits) (sockname : Bytes) : Output :=
  .bye (if lim.sockname.isPrefixOf sockname then .ok else .ko)

/-- One request: the files afterwards, and what is sent. -/
def serve (lim : Limits) (fd : Nat) (op : Op) (l : List Entry) : List Entry × List Output :=
  match op with
  | .openFile p flag => (openFile lim fd p flag l).map id fun a => [.answer a]
  | .readFile p => (l, [readFile fd p l])
  | .readNFiles n => readNFiles n l
  | .appendToFile p content => (appendToFile lim fd p content l).map id fun a => [.answer a]
  | .closeFile p => (closeFile fd p l).map id fun a => [.answer a]
  | .closeConnection sockname => (l, [closeConnection lim sockname])

/-! ## The cache stays within its limits -/

/-- The names differ, and the files fit. -/
structure Bounded (lim : Limits) (l : List Entry) : Prop where
  names : (l.map Entry.pathname).Nodup
  bytes : bytesOf l ≤ lim.ram
  length : (l.length : Int) ≤ lim.slots

section

variable {lim : Limits} {l : List Entry} {ks : List Bytes} {g : Entry → Entry} {fd : Nat}
variable {p flag content : Bytes} {n : Int}

theorem bytes_cons {e : Entry} : bytesOf (e :: l) = e.size + bytesOf l := by
  unfold bytesOf
  rw [List.map_cons, List.sum_cons]

theorem Entry.size_nonneg (e : Entry) : 0 ≤ e.size := Int.natCast_nonneg _

/-- Fewer files take no more bytes. -/
theorem bytes_sublist {l' : List Entry} (h : l'.Sublist l) : bytesOf l' ≤ bytesOf l := by
  refine List.Sublist.sum_le_sum (h.map Entry.size) fun x hx => ?_
  obtain ⟨e, -, rfl⟩ := List.mem_map.mp hx
  exact e.size_nonneg

/-- The empty cache respects its limits. -/
theorem bounded_nil (hram : 0 ≤ lim.ram) (hslots : 0 ≤ lim.slots) : Bounded lim [] :=
  ⟨List.nodup_nil, hram, hslots⟩

theorem Bounded.sublist {l' : List Entry} (h : Bounded lim l) (hs : l'.Sublist l) :
    Bounded lim l' where
  names := h.names.sublist (hs.map _)
  bytes := Int.le_trans (bytes_sublist hs) h.bytes
  length := Int.le_trans (Int.ofNat_le.mpr hs.length_le) h.length

theorem Bounded.without (h : Bounded lim l) (ks : List Bytes) :
    Bounded lim (without Entry.pathname ks l) := h.sublist (without_sublist ks l)

theorem length_edit : (edit Entry.pathname ks g l).length = l.length := List.length_map ..

/-- A write that changes no sizes. -/
theorem bytes_edit (hg : ∀ e, (g e).size = e.size) : bytesOf (edit Entry.pathname ks g l) = bytesOf l := by
  unfold bytesOf edit
  rw [List.map_map]
  refine congrArg List.sum (List.map_congr_left fun e _ => ?_)
  show Entry.size (if _ then g e else e) = e.size
  split
  · exact hg e
  · rfl

/-- A rewriting that keeps names and sizes keeps the limits. -/
theorem Bounded.edit (h : Bounded lim l) (hg : ∀ e, (g e).pathname = e.pathname)
    (hsize : ∀ e, (g e).size = e.size) : Bounded lim (edit Entry.pathname ks g l) where
  names := by
    rw [map_key_edit ks hg]
    exact h.names
  bytes := by
    rw [bytes_edit hsize]
    exact h.bytes
  length := by
    rw [length_edit]
    exact h.length

/-- One file grows by the bytes. -/
theorem bytes_extend (h : (l.map Entry.pathname).Nodup) :
    bytesOf (edit Entry.pathname [p] (Entry.extend content) l) ≤ bytesOf l + content.length := by
  induction l with
  | nil =>
    show (0 : Int) ≤ 0 + content.length
    omega
  | cons e l ih =>
    obtain ⟨hnot, hnd⟩ := List.nodup_cons.mp h
    have hcons : edit Entry.pathname [p] (Entry.extend content) (e :: l) =
        (if [p].contains e.pathname then e.extend content else e) ::
          edit Entry.pathname [p] (Entry.extend content) l := rfl
    rw [hcons, bytes_cons, bytes_cons]
    by_cases hp : [p].contains e.pathname
    · -- the others have other names
      have hsame : edit Entry.pathname [p] (Entry.extend content) l = l := by
        refine (List.map_congr_left fun x hx => ?_).trans (List.map_id l)
        refine if_neg fun hx' => hnot ?_
        simp only [List.contains_iff_mem, List.mem_singleton] at hp hx'
        rw [hp, ← hx']
        exact List.mem_map.mpr ⟨x, hx, rfl⟩
      have hsize : (e.extend content).size = e.size + content.length := by
        show ((e.content ++ content).length : Int) = e.content.length + content.length
        rw [List.length_append, Nat.cast_add]
      rw [if_pos hp, hsame, hsize]
      omega
    · have hrest := ih hnd
      rw [if_neg hp]
      omega

/-- A new name fits where a slot is free. -/
theorem Bounded.create (h : Bounded lim l) (hp : ∀ e ∈ l, e.pathname ≠ p)
    (hslot : (l.length : Int) < lim.slots) : Bounded lim (Entry.create p fd :: l) where
  names := by
    rw [List.map_cons, List.nodup_cons]
    refine ⟨fun hmem => ?_, h.names⟩
    obtain ⟨e, he, heq⟩ := List.mem_map.mp hmem
    exact hp e he heq
  bytes := by
    rw [bytes_cons]
    show 0 + bytesOf l ≤ lim.ram
    rw [Int.zero_add]
    exact h.bytes
  length := by
    rw [List.length_cons, Nat.cast_add, Nat.cast_one]
    omega

theorem ne_of_lookup_none (h : lookup Entry.pathname p l = none) : ∀ e ∈ l, e.pathname ≠ p := by
  intro e he heq
  exact List.find?_eq_none.mp h e he (beq_iff_eq.mpr heq)

/-- Taking out a file that is there makes a slot. -/
theorem length_without_lt {e : Entry} (he : e ∈ l) :
    (without Entry.pathname [e.pathname] l).length < l.length := by
  refine List.length_filter_lt_length_iff_exists.mpr ⟨e, he, ?_⟩
  simp

theorem mem_of_removables {e : Entry} (h : e ∈ removables l) : e ∈ l :=
  List.mem_reverse.mp (List.mem_filter.mp h).1

/-- OPEN keeps the limits. -/
theorem bounded_openFile (h : Bounded lim l) : Bounded lim (openFile lim fd p flag l).1 := by
  unfold openFile
  cases hfind : lookup Entry.pathname p l with
  | some e =>
    dsimp only
    split
    · exact h.edit (fun _ => rfl) (fun _ => rfl)
    · exact h
  | none =>
    have hnew := ne_of_lookup_none hfind
    dsimp only
    split
    · exact h
    · unfold createFile
      split
      · next hslot => exact h.create hnew hslot
      · cases hv : (removables l).head? with
        | none => exact h
        | some v =>
          have hmem := mem_of_removables (List.mem_of_head? hv)
          have hlt := length_without_lt hmem
          have hlen := h.length
          refine (h.without [v.pathname]).create (fun e he => ?_) (by omega)
          exact hnew e ((without_sublist _ l).subset he)

/-- An append makes the room that it takes. -/
theorem bounded_extendFile (h : Bounded lim l) (e : Entry) :
    Bounded lim (extendFile lim e content l).1 := by
  unfold extendFile
  dsimp only
  split
  · exact h.without [e.pathname]
  · split
    · next hfits =>
      have hleft := h.without (namesOf (evicted lim content l))
      refine ⟨?_, Int.le_trans (bytes_extend hleft.names) hfits, ?_⟩
      · rw [map_key_edit]
        · exact hleft.names
        · intro e
          rfl
      · rw [length_edit]
        exact hleft.length
    · exact h

/-- So the request keeps the limits. -/
theorem bounded_appendToFile (h : Bounded lim l) :
    Bounded lim (appendToFile lim fd p content l).1 := by
  unfold appendToFile
  cases lookup Entry.pathname p l with
  | none => exact h
  | some e =>
    dsimp only
    split
    · exact bounded_extendFile h e
    · exact h

/-- **Every request keeps the cache within its limits.** -/
theorem bounded_serve (h : Bounded lim l) (op : Op) : Bounded lim (serve lim fd op l).1 := by
  cases op with
  | openFile p flag => exact bounded_openFile h
  | readFile p => exact h
  | readNFiles n => exact h.edit (fun _ => rfl) (fun _ => rfl)
  | appendToFile p content => exact bounded_appendToFile h
  | closeFile p =>
    show Bounded lim (closeFile fd p l).1
    unfold closeFile
    cases lookup Entry.pathname p l with
    | none => exact h
    | some e =>
      dsimp only
      split
      · exact h.edit (fun _ => rfl) (fun _ => rfl)
      · exact h
  | closeConnection sockname => exact h

end

/-- A cache within its limits. -/
structure Cache (lim : Limits) where
  entries : List Entry
  bounded : Bounded lim entries

/-- The files after a request. -/
def Cache.serve {lim : Limits} (c : Cache lim) (fd : Nat) (op : Op) : Cache lim :=
  ⟨(Service.serve lim fd op c.entries).1, bounded_serve c.bounded op⟩

/-- The cache, with the request that was taken last and what is still to be sent for
it. -/
structure State (lim : Limits) where
  cache : Cache lim
  serving : Option Request
  due : List Output

/-- What an event sends, and the request it is sent for. -/
def sends : Event → Option (Request × Output)
  | .frame rq _ pathname size content => some (rq, .file pathname size content)
  | .answered rq a => some (rq, .answer a)
  | .disconnected rq a => some (rq, .bye a)
  | _ => none

/-- What an event sends to a client. -/
def output (ev : Event) : Option Output := (sends ev).map Prod.snd

/-- The service reads a history: a request is served at once, when nothing is due, and
then only what is due is sent, in order, to the client of that request. -/
def serviceStep {lim : Limits} (s : State lim) (ev : Event) : Option (State lim) :=
  match ev with
  | .requested rq =>
    if s.due = [] then
      some ⟨s.cache.serve rq.fd rq.op, some rq, (serve lim rq.fd rq.op s.cache.entries).2⟩
    else none
  | ev =>
    match sends ev with
    | none => some s
    | some (rq, o) =>
      if s.serving = some rq ∧ s.due.head? = some o then some { s with due := s.due.tail }
      else none

/-- No files, nothing due. -/
def State.empty (lim : Limits) (hram : 0 ≤ lim.ram) (hslots : 0 ≤ lim.slots) : State lim :=
  ⟨⟨[], bounded_nil hram hslots⟩, none, []⟩

end FileStorage.Service

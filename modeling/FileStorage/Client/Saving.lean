import FileStorage.Client.Model
import FileStorage.Lib.Keyed
import FileStorage.Wire.Answers

/-!
# Saving what READ N sends

With a directory, `readNFiles` writes every file that it receives into it, under
the `basename` of the path, and only then waits for the next one. So a file that
cannot be opened ends the client on the way, and of two files with one `basename`
the one that came last stays. Otherwise nothing is lost: `readNFilesInto_eq` is the
loop as a whole, the files that `readNFilesAnswer` receives and then the writes.
-/

namespace FileStorage.Client

open FileStorage.Lib FileStorage.Wire

/-- The files of the client's file system, by their names. -/
abbrev Folder : Type := Bytes → Option Bytes

def filenameIn (dir : Bytes) (pathname : Option Bytes) : Bytes :=
  dir ++ slash :: basename pathname

/-- Where a file that was received is saved, if it is. -/
def savedAs (dirname : Option Bytes) (isDir : Bool) (r : FileContent) : Option Bytes :=
  if r.check = 1 ∧ isDir = true then dirname.map (filenameIn · r.pathname) else none

/-- The loop of `readNFiles`; `isDir` says that `stat` finds a directory, and `opens`
which files `fopen` opens to write. -/
def readNFilesInto (dirname : Option Bytes) (isDir : Bool) (opens : Bytes → Bool) :
    Nat → Conn → Folder → Except Stop ((Int × Folder) × Conn)
  | 0, _, _ => .error .blocked
  | fuel + 1, c, folder => do
    let (r, c) ← receivedMsgFileContent c
    match savedAs dirname isDir r with
    | some filename =>
      if opens filename then
        readNFilesInto dirname isDir opens fuel c
          (Function.update folder filename (some (r.smsContent.getD [])))
      else throw .exited
    | none =>
      if r.check = 0 then return ((0, folder), c)
      else if r.check = -1 then return ((-1, folder), c)
      else readNFilesInto dirname isDir opens fuel c folder

/-- The files are saved in the directory, in the order in which they came. -/
def saved (dir : Bytes) (fs : List (Option Bytes × Nat × Option Bytes)) (folder : Folder) :
    Folder :=
  writes (fun f => filenameIn dir f.1) (fun f => some (f.2.2.getD [])) fs folder

section

variable {dirname : Option Bytes} {dir : Bytes} {isDir : Bool} {opens : Bytes → Bool}
variable {fuel : Nat} {c c₁ c' : Conn} {folder : Folder} {ret : Int} {r : FileContent}
variable {fs : List (Option Bytes × Nat × Option Bytes)}

theorem check_cases (h : receivedMsgFileContent c = .ok (r, c')) :
    r.check = 1 ∨ r.check = 0 ∨ r.check = -1 := by
  unfold receivedMsgFileContent at h
  obtain ⟨⟨smsInfo, c₁⟩, -, h⟩ := bind_eq_ok h
  dsimp only at h
  split at h
  · cases h
  · split at h
    · split at h
      · cases h
      · split at h
        · cases h
        · obtain ⟨⟨content, c₂⟩, -, h⟩ := bind_eq_ok h
          cases h
          exact .inl rfl
    · split at h
      · cases h
        exact .inr (.inl rfl)
      · cases h
        exact .inr (.inr rfl)

/-- One file, and then the loop goes on. -/
theorem readNFilesAnswer_file (h : readNFilesAnswer (fuel + 1) c = .ok ((ret, fs), c'))
    (hr : receivedMsgFileContent c = .ok (r, c₁)) (hcheck : r.check = 1) :
    ∃ files, readNFilesAnswer fuel c₁ = .ok ((ret, files), c') ∧
      fs = (r.pathname, r.sizeBuf, r.smsContent) :: files := by
  obtain ⟨check, pathname, sizeBuf, smsContent⟩ := r
  obtain rfl : check = 1 := hcheck
  rw [readNFilesAnswer_cons hr] at h
  obtain ⟨⟨⟨ret', files⟩, c₂⟩, hfiles, h⟩ := bind_eq_ok h
  cases h
  exact ⟨files, hfiles, rfl⟩

/-- The end of the loop. -/
theorem readNFilesAnswer_end (h : readNFilesAnswer (fuel + 1) c = .ok ((ret, fs), c'))
    (hr : receivedMsgFileContent c = .ok (r, c₁)) (hcheck : r.check = 0 ∨ r.check = -1) :
    ret = r.check ∧ fs = [] ∧ c' = c₁ := by
  rw [readNFilesAnswer, hr, ok_bind] at h
  dsimp only at h
  rcases hcheck with hcheck | hcheck
  · rw [if_pos hcheck] at h
    cases h
    exact ⟨hcheck.symm, rfl, rfl⟩
  · rw [if_neg (by rw [hcheck]; decide), if_pos hcheck] at h
    cases h
    exact ⟨hcheck.symm, rfl, rfl⟩

theorem savedAs_last (hcheck : r.check = 0 ∨ r.check = -1) : savedAs dirname isDir r = none := by
  refine if_neg fun h => ?_
  rcases hcheck with hcheck | hcheck
  · rw [hcheck] at h
    cases h.1
  · rw [hcheck] at h
    cases h.1

theorem readNFilesInto_end (hr : receivedMsgFileContent c = .ok (r, c₁))
    (hcheck : r.check = 0 ∨ r.check = -1) :
    readNFilesInto dirname isDir opens (fuel + 1) c folder = .ok ((r.check, folder), c₁) := by
  rw [readNFilesInto, hr, ok_bind]
  dsimp only
  rw [savedAs_last hcheck]
  rcases hcheck with hcheck | hcheck
  · rw [hcheck]
    rfl
  · rw [hcheck]
    rfl

/-- **The loop receives the files and saves them**, unless one of them cannot be opened. -/
theorem readNFilesInto_eq (h : readNFilesAnswer fuel c = .ok ((ret, fs), c')) :
    readNFilesInto (some dir) true opens fuel c folder =
      if fs.all fun f => opens (filenameIn dir f.1) then .ok ((ret, saved dir fs folder), c')
      else .error .exited := by
  induction fuel generalizing c folder fs with
  | zero => cases h
  | succ fuel ih =>
    obtain ⟨r, hr⟩ := first_ok h
    obtain ⟨r, c₁⟩ := r
    rcases check_cases hr with hcheck | hcheck
    · obtain ⟨files, hfiles, rfl⟩ := readNFilesAnswer_file h hr hcheck
      have hsaved : savedAs (some dir) true r = some (filenameIn dir r.pathname) :=
        if_pos ⟨hcheck, rfl⟩
      rw [readNFilesInto, hr, ok_bind]
      dsimp only
      rw [hsaved, List.all_cons]
      dsimp only
      -- the file is written before the next one is received
      cases opens (filenameIn dir r.pathname) with
      | true =>
        rw [if_pos rfl, Bool.true_and]
        exact ih hfiles
      | false => rfl
    · obtain ⟨rfl, rfl, rfl⟩ := readNFilesAnswer_end h hr hcheck
      rw [readNFilesInto_end hr hcheck]
      rfl

/-- Without a directory nothing is saved. -/
theorem readNFilesInto_nowhere (hno : dirname = none ∨ isDir = false)
    (h : readNFilesAnswer fuel c = .ok ((ret, fs), c')) :
    readNFilesInto dirname isDir opens fuel c folder = .ok ((ret, folder), c') := by
  induction fuel generalizing c folder fs with
  | zero => cases h
  | succ fuel ih =>
    obtain ⟨r, hr⟩ := first_ok h
    obtain ⟨r, c₁⟩ := r
    rcases check_cases hr with hcheck | hcheck
    · obtain ⟨files, hfiles, rfl⟩ := readNFilesAnswer_file h hr hcheck
      have hsaved : savedAs dirname isDir r = none := by
        unfold savedAs
        rcases hno with rfl | rfl
        · rw [Option.map_none, ite_self]
        · exact if_neg fun h => Bool.false_ne_true h.2
      rw [readNFilesInto, hr, ok_bind]
      dsimp only
      rw [hsaved]
      dsimp only
      rw [if_neg (by rw [hcheck]; decide), if_neg (by rw [hcheck]; decide)]
      exact ih hfiles
    · obtain ⟨rfl, rfl, rfl⟩ := readNFilesAnswer_end h hr hcheck
      exact readNFilesInto_end hr hcheck

end

end FileStorage.Client

import FileStorage.Service.Append

/-!
# Who has a file open

What a request does to the files that are open. A file that somebody has open
stays so through every request of the others, READ N apart, which closes what it
sends (`owns_serve`), and only OPEN FILE opens one (`of_owns_serve`). A client that
has a file open is never refused to read or to close it.

Where a request is `Clean`, an APPEND finds room for its bytes or deletes the file
(`grows_of_clean`); so no refusal leaves the file open.
-/

namespace FileStorage.Service

open FileStorage.Lib FileStorage.Worker FileStorage.Worker.Scan FileStorage.Worker.Room
open FileStorage.Worker.Sequential FileStorage.Worker.Lookup

/-- The client has the file open. -/
def Owns (l : List Entry) (fd : Nat) (p : Bytes) : Prop :=
  ∃ e ∈ l, e.pathname = p ∧ e.owner = some fd

/-- What READ N sends is closed. -/
def SendsClosed (l : List Entry) (op : Op) : Prop :=
  ∀ n, op = .readNFiles n → ∀ e ∈ wantedFiles n l, e.owner = none

/-- An APPEND deletes its file, or there is room for it when files have gone. -/
def Grows (lim : Limits) (l : List Entry) (fd : Nat) (op : Op) : Prop :=
  ∀ p content e, op = .appendToFile p content → lookup Entry.pathname p l = some e →
    e.owner = some fd →
      (lim.ram < content.length ∧ e.written = false) ∨
        bytesOf (without Entry.pathname (namesOf (evicted lim content l)) l) + content.length ≤
          lim.ram

/-- The request gives the file up. -/
def GivesUp (lim : Limits) (l : List Entry) (fd : Nat) (op : Op) (p : Bytes) : Prop :=
  op = .closeFile p ∨
    ∃ content, op = .appendToFile p content ∧ (serve lim fd op l).2 = [.answer .ko]

section

variable {lim : Limits} {l : List Entry} {ks : List Bytes} {g : Entry → Entry} {fd fd' : Nat}
variable {p q flag content : Bytes} {e : Entry} {op : Op}

theorem entry_unique (h : (l.map Entry.pathname).Nodup) {e' : Entry} (he : e ∈ l) (he' : e' ∈ l)
    (hp : e.pathname = e'.pathname) : e = e' := List.inj_on_of_nodup_map h he he' hp

theorem lookup_some (h : lookup Entry.pathname p l = some e) : e ∈ l ∧ e.pathname = p := by
  have hp := List.find?_some h
  exact ⟨List.mem_of_find?_eq_some h, beq_iff_eq.mp hp⟩

/-- A file that is owned is found under its name. -/
theorem lookup_of_owns (hnd : (l.map Entry.pathname).Nodup) (h : Owns l fd p) :
    ∃ e, lookup Entry.pathname p l = some e ∧ e.owner = some fd := by
  obtain ⟨e, he, rfl, ho⟩ := h
  exact ⟨e, lookup_of_mem hnd he, ho⟩

/-! ## Writes -/

/-- A rewriting that keeps the owner of a file keeps it owned. -/
theorem owns_edit (h : Owns l fd p) (hg : ∀ e, (g e).pathname = e.pathname)
    (hkeep : ∀ e ∈ l, e.pathname = p → e.owner = some fd → p ∈ ks → (g e).owner = some fd) :
    Owns (edit Entry.pathname ks g l) fd p := by
  obtain ⟨e, he, rfl, ho⟩ := h
  refine ⟨_, List.mem_map_of_mem he, ?_⟩
  split
  · next hmem => exact ⟨hg e, hkeep e he rfl ho (List.contains_iff_mem.mp hmem)⟩
  · exact ⟨rfl, ho⟩

/-- Who owns a file behind a rewriting, owned it or got it there. -/
theorem of_owns_edit (hg : ∀ e, (g e).pathname = e.pathname)
    (h : Owns (edit Entry.pathname ks g l) fd p) :
    ∃ e ∈ l, e.pathname = p ∧
      ((p ∈ ks ∧ (g e).owner = some fd) ∨ (p ∉ ks ∧ e.owner = some fd)) := by
  obtain ⟨e', he', hp, ho⟩ := h
  obtain ⟨e, he, rfl⟩ := List.mem_map.mp he'
  refine ⟨e, he, ?_⟩
  split at hp
  · next hmem =>
    rw [if_pos hmem] at ho
    rw [hg] at hp
    subst hp
    exact ⟨rfl, .inl ⟨List.contains_iff_mem.mp hmem, ho⟩⟩
  · next hmem =>
    rw [if_neg hmem] at ho
    subst hp
    exact ⟨rfl, .inr ⟨fun h => hmem (List.contains_iff_mem.mpr h), ho⟩⟩

/-- A file that stays keeps its owner. -/
theorem owns_without (h : Owns l fd p) (hp : p ∉ ks) : Owns (without Entry.pathname ks l) fd p := by
  obtain ⟨e, he, rfl, ho⟩ := h
  refine ⟨e, List.mem_filter.mpr ⟨he, ?_⟩, rfl, ho⟩
  rw [Bool.not_eq_true', ← Bool.not_eq_true, List.contains_iff_mem]
  exact hp

/-- A removal gives nobody a file. -/
theorem of_owns_without (h : Owns (without Entry.pathname ks l) fd p) : Owns l fd p := by
  obtain ⟨e, he, hp, ho⟩ := h
  exact ⟨e, (without_sublist ks l).subset he, hp, ho⟩

/-- Nobody has a file open that can be evicted. -/
theorem not_mem_removables (hnd : (l.map Entry.pathname).Nodup) (h : Owns l fd p) :
    p ∉ namesOf (removables l) := by
  intro hmem
  obtain ⟨v, hv, hp⟩ := List.mem_map.mp hmem
  obtain ⟨e, he, heq, ho⟩ := h
  have hclosed := (List.mem_filter.mp hv).2
  rw [entry_unique hnd (mem_of_removables hv) he (hp.trans heq.symm)] at hclosed
  unfold Entry.removable at hclosed
  rw [ho] at hclosed
  cases hclosed

/-! ## The requests -/

/-- A new file takes nothing from the owners of the others. -/
theorem owns_createFile (hnd : (l.map Entry.pathname).Nodup) (h : Owns l fd' q) :
    Owns (createFile lim fd p l).1 fd' q := by
  have hcons : ∀ {l : List Entry}, Owns l fd' q → Owns (Entry.create p fd :: l) fd' q := by
    intro l h
    obtain ⟨e, he, hp, ho⟩ := h
    exact ⟨e, List.mem_cons_of_mem _ he, hp, ho⟩
  unfold createFile
  split
  · exact hcons h
  · split
    · exact h
    · next v hv =>
      refine hcons (owns_without h fun hmem => ?_)
      rw [List.mem_singleton] at hmem
      subst hmem
      exact not_mem_removables hnd h (List.mem_map_of_mem (List.mem_of_head? hv))

/-- OPEN takes no file from its owner. -/
theorem owns_openFile (hnd : (l.map Entry.pathname).Nodup) (h : Owns l fd' q) :
    Owns (openFile lim fd p flag l).1 fd' q := by
  unfold openFile
  split
  · next e hfind =>
    split
    · next hopen =>
      refine owns_edit h (fun _ => rfl) fun e' he' hq ho hmem => ?_
      -- the file that is opened was closed
      rw [List.mem_singleton] at hmem
      obtain ⟨he, hp⟩ := lookup_some hfind
      rw [entry_unique hnd he' he (hq.trans (hmem.trans hp.symm)), hopen.2] at ho
      cases ho
    · exact h
  · split
    · exact h
    · exact owns_createFile hnd h

/-- A new file, or an old one: somebody else has it open only if he had before. -/
theorem of_owns_createFile (h : Owns (createFile lim fd p l).1 fd' q) :
    Owns l fd' q ∨ (fd' = fd ∧ q = p ∧ (createFile lim fd p l).2 ≠ .ko) := by
  have hcons : ∀ {l : List Entry}, Owns (Entry.create p fd :: l) fd' q →
      Owns l fd' q ∨ (fd' = fd ∧ q = p) := by
    intro l h
    obtain ⟨e, he, hp, ho⟩ := h
    rcases List.mem_cons.mp he with rfl | he
    · exact .inr ⟨(Option.some.inj ho).symm, hp.symm⟩
    · exact .inl ⟨e, he, hp, ho⟩
  unfold createFile at h ⊢
  split
  · next hslot =>
    rw [if_pos hslot] at h
    exact (hcons h).imp_right fun h => ⟨h.1, h.2, nofun⟩
  · next hslot =>
    rw [if_neg hslot] at h
    split
    · next hv =>
      rw [hv] at h
      exact .inl h
    · next v hv =>
      rw [hv] at h
      exact (hcons h).imp of_owns_without fun h => ⟨h.1, h.2, nofun⟩

/-- OPEN gives the file that it was asked for, and says so. -/
theorem of_owns_openFile (h : Owns (openFile lim fd p flag l).1 fd' q) :
    Owns l fd' q ∨ (fd' = fd ∧ q = p ∧ (openFile lim fd p flag l).2 ≠ .ko) := by
  unfold openFile at h ⊢
  split
  · next e hfind =>
    rw [hfind] at h
    dsimp only at h
    split
    · next hopen =>
      rw [if_pos hopen] at h
      obtain ⟨e, he, hp, ho⟩ := of_owns_edit (g := Entry.openBy fd) (fun _ => rfl) h
      rcases ho with ⟨hmem, ho⟩ | ⟨-, ho⟩
      · exact .inr ⟨(Option.some.inj ho).symm, List.mem_singleton.mp hmem, nofun⟩
      · exact .inl ⟨e, he, hp, ho⟩
    · next hopen =>
      rw [if_neg hopen] at h
      exact .inl h
  · next hfind =>
    rw [hfind] at h
    dsimp only at h
    split
    · next hflag =>
      rw [if_pos hflag] at h
      exact .inl h
    · next hflag =>
      rw [if_neg hflag] at h
      exact of_owns_createFile h

/-- Who is not refused has the file open. -/
theorem openFile_owns :
    (openFile lim fd p flag l).2 = .ko ∨ Owns (openFile lim fd p flag l).1 fd p := by
  unfold openFile
  split
  · next e hfind =>
    split
    · obtain ⟨he, hp⟩ := lookup_some hfind
      refine .inr ⟨_, List.mem_map_of_mem he, ?_⟩
      rw [hp, if_pos (by simp)]
      exact ⟨hp, rfl⟩
    · exact .inl rfl
  · split
    · exact .inl rfl
    · unfold createFile
      split
      · exact .inr ⟨_, List.mem_cons_self, rfl, rfl⟩
      · split
        · exact .inl rfl
        · exact .inr ⟨_, List.mem_cons_self, rfl, rfl⟩

/-- An append takes a file from its owner only where it fails. -/
theorem owns_extendFile (hnd : (l.map Entry.pathname).Nodup) (hown : e.owner = some fd) (he : e ∈ l)
    (h : Owns l fd' q) :
    Owns (extendFile lim e content l).1 fd' q ∨
      (fd' = fd ∧ q = e.pathname ∧ (extendFile lim e content l).2 = .ko) := by
  unfold extendFile
  dsimp only
  split
  · by_cases hq : q = e.pathname
    · obtain ⟨e', he', hp', ho'⟩ := h
      rw [entry_unique hnd he' he (hp'.trans hq), hown] at ho'
      exact .inr ⟨(Option.some.inj ho').symm, hq, rfl⟩
    · exact .inl (owns_without h fun hmem => hq (List.mem_singleton.mp hmem))
  · split
    · refine .inl (owns_edit (owns_without h fun hmem => ?_) (fun _ => rfl) fun _ _ _ ho _ => ho)
      have hfront : evicted lim content l <+: removables l := fewest_prefix _ _ _
      exact not_mem_removables hnd h (List.map_subset _ hfront.subset hmem)
    · exact .inl h

/-- So does the request as a whole. -/
theorem owns_appendToFile (hnd : (l.map Entry.pathname).Nodup) (h : Owns l fd' q) :
    Owns (appendToFile lim fd p content l).1 fd' q ∨
      (fd' = fd ∧ q = p ∧ (appendToFile lim fd p content l).2 = .ko) := by
  unfold appendToFile
  split
  · exact .inl h
  · next e hfind =>
    split
    · next hown =>
      obtain ⟨he, rfl⟩ := lookup_some hfind
      exact owns_extendFile hnd hown he h
    · exact .inl h

/-- An append gives nobody a file. -/
theorem of_owns_appendToFile (hnd : (l.map Entry.pathname).Nodup)
    (hgrows : Grows lim l fd (.appendToFile p content))
    (h : Owns (appendToFile lim fd p content l).1 fd' q) :
    Owns l fd' q ∧ ¬ (fd' = fd ∧ q = p ∧ (appendToFile lim fd p content l).2 = .ko) := by
  unfold appendToFile at h ⊢
  split at h
  · next hfind =>
    refine ⟨h, fun hsame => ?_⟩
    obtain ⟨e, he, hp, -⟩ := h
    exact ne_of_lookup_none hfind e he (hp.trans hsame.2.1)
  · next e hfind =>
    obtain ⟨he, hpath⟩ := lookup_some hfind
    split at h
    · next hown =>
      rw [if_pos hown]
      have hcase := hgrows p content e rfl hfind hown
      unfold extendFile at h ⊢
      dsimp only at h ⊢
      by_cases hlarge : lim.ram < content.length ∧ e.written = false
      · rw [if_pos hlarge] at h
        refine ⟨of_owns_without h, fun hsame => ?_⟩
        -- the file was deleted
        obtain ⟨e', he', hp', -⟩ := h
        have hout := (List.mem_filter.mp he').2
        rw [hp', hsame.2.1, ← hpath] at hout
        simp at hout
      · have hroom := hcase.resolve_left hlarge
        rw [if_neg hlarge, if_pos hroom] at h ⊢
        obtain ⟨e', he', hp', ho'⟩ := of_owns_edit (g := Entry.extend content) (fun _ => rfl) h
        exact ⟨of_owns_without ⟨e', he', hp', ho'.elim And.right And.right⟩, fun hsame =>
          absurd hsame.2.2 nofun⟩
    · next hown =>
      rw [if_neg hown]
      refine ⟨h, fun hsame => hown ?_⟩
      obtain ⟨e', he', hp', ho'⟩ := h
      rw [← entry_unique hnd he' he (hp'.trans (hsame.2.1.trans hpath.symm)), ← hsame.1]
      exact ho'

/-- CLOSE FILE takes the file of the client that asks. -/
theorem owns_closeFile (hnd : (l.map Entry.pathname).Nodup) (h : Owns l fd' q) :
    Owns (closeFile fd p l).1 fd' q ∨ (fd' = fd ∧ q = p) := by
  unfold closeFile
  split
  · next e hfind =>
    split
    · next hown =>
      obtain ⟨he, rfl⟩ := lookup_some hfind
      by_cases hq : q = e.pathname
      · obtain ⟨e', he', hp', ho'⟩ := h
        rw [entry_unique hnd he' he (hp'.trans hq), hown] at ho'
        exact .inr ⟨(Option.some.inj ho').symm, hq⟩
      · refine .inl (owns_edit h (fun _ => rfl) fun _ _ _ _ hmem => ?_)
        exact absurd (List.mem_singleton.mp hmem) hq
    · exact .inl h
  · exact .inl h

/-- A file that was closed is not open. -/
theorem of_owns_closeFile (hnd : (l.map Entry.pathname).Nodup)
    (h : Owns (closeFile fd p l).1 fd' q) : Owns l fd' q ∧ ¬ (fd' = fd ∧ q = p) := by
  unfold closeFile at h
  split at h
  · next e hfind =>
    obtain ⟨he, rfl⟩ := lookup_some hfind
    split at h
    · next hown =>
      obtain ⟨e', he', hp', ho'⟩ := of_owns_edit (g := Entry.close) (fun _ => rfl) h
      rcases ho' with ⟨-, ho'⟩ | ⟨hnot, ho'⟩
      · cases ho'
      · exact ⟨⟨e', he', hp', ho'⟩, fun hsame => hnot (List.mem_singleton.mpr hsame.2)⟩
    · next hown =>
      refine ⟨h, fun hsame => hown ?_⟩
      obtain ⟨rfl, rfl⟩ := hsame
      obtain ⟨e', he', hp', ho'⟩ := h
      rw [← entry_unique hnd he' he hp']
      exact ho'
  · next hfind =>
    refine ⟨h, fun hsame => ?_⟩
    obtain ⟨e', he', hp', -⟩ := h
    exact ne_of_lookup_none hfind e' he' (hp'.trans hsame.2)

/-- **Who has a file open keeps it** until he gives it up. -/
theorem owns_serve (hnd : (l.map Entry.pathname).Nodup) (hsends : SendsClosed l op)
    (h : Owns l fd' q) :
    Owns (serve lim fd op l).1 fd' q ∨ (fd' = fd ∧ GivesUp lim l fd op q) := by
  cases op with
  | openFile p flag => exact .inl (owns_openFile hnd h)
  | readFile p => exact .inl h
  | readNFiles n =>
    refine .inl (owns_edit h (fun _ => rfl) fun e he hp ho hmem => ?_)
    obtain ⟨e', he', hp'⟩ := List.mem_map.mp hmem
    have hl : e' ∈ l := List.mem_of_mem_filter (List.mem_of_mem_take he')
    have hclosed := hsends n rfl e' he'
    rw [entry_unique hnd hl he (hp'.trans hp.symm), ho] at hclosed
    cases hclosed
  | appendToFile p content =>
    refine (owns_appendToFile hnd h).imp_right fun hko => ?_
    obtain ⟨hfd, rfl, hko⟩ := hko
    refine ⟨hfd, .inr ⟨content, rfl, ?_⟩⟩
    show [Output.answer (appendToFile lim fd q content l).2] = _
    rw [hko]
  | closeFile p =>
    refine (owns_closeFile hnd h).imp_right fun hsame => ⟨hsame.1, .inl ?_⟩
    rw [hsame.2]
  | closeConnection sockname => exact .inl h

/-- **Only OPEN FILE opens a file**, and who gives it up has it no longer. -/
theorem of_owns_serve (hnd : (l.map Entry.pathname).Nodup) (hgrows : Grows lim l fd op)
    (h : Owns (serve lim fd op l).1 fd' q) :
    (Owns l fd' q ∧ ¬ (fd' = fd ∧ GivesUp lim l fd op q)) ∨
      (fd' = fd ∧ ∃ flag a, op = .openFile q flag ∧ a ≠ .ko ∧
        (serve lim fd op l).2 = [.answer a]) := by
  have hkeeps : (∀ p, op ≠ .closeFile p) → (∀ p content, op ≠ .appendToFile p content) →
      ¬ (fd' = fd ∧ GivesUp lim l fd op q) := by
    intro hclose happend hgives
    rcases hgives.2 with hop | ⟨content, hop, -⟩
    · exact hclose q hop
    · exact happend q content hop
  cases op with
  | openFile p flag =>
    rcases of_owns_openFile h with h | ⟨hfd, rfl, hne⟩
    · exact .inl ⟨h, hkeeps nofun nofun⟩
    · exact .inr ⟨hfd, flag, _, rfl, hne, rfl⟩
  | readFile p => exact .inl ⟨h, hkeeps nofun nofun⟩
  | readNFiles n =>
    obtain ⟨e, he, hp, ho⟩ := of_owns_edit (g := Entry.close) (fun _ => rfl) h
    rcases ho with ⟨-, ho⟩ | ⟨-, ho⟩
    · cases ho
    · exact .inl ⟨⟨e, he, hp, ho⟩, hkeeps nofun nofun⟩
  | appendToFile p content =>
    obtain ⟨h, hnot⟩ := of_owns_appendToFile hnd hgrows h
    refine .inl ⟨h, fun hgives => ?_⟩
    rcases hgives.2 with hop | ⟨content, hop, hko⟩
    · cases hop
    · cases hop
      exact hnot ⟨hgives.1, rfl, Output.answer.inj (List.singleton_inj.mp hko)⟩
  | closeFile p =>
    obtain ⟨h, hnot⟩ := of_owns_closeFile hnd h
    refine .inl ⟨h, fun hgives => ?_⟩
    rcases hgives.2 with hop | ⟨content, hop, -⟩
    · cases hop
      exact hnot ⟨hgives.1, rfl⟩
    · cases hop
  | closeConnection sockname => exact .inl ⟨h, hkeeps nofun nofun⟩

/-- **A clean request grows.** -/
theorem grows_of_clean {sh : Shared} (h : Represents sh lim l) (hb : Bounded lim l)
    (hclean : Clean sh.storage fd op) : Grows lim l fd op := by
  intro p content e hop hfind howner
  subst hop
  obtain ⟨hu, hsound⟩ := hclean
  obtain ⟨ent, hs⟩ := h.shows
  rcases search_shows hs h.wf.toSeqOk hb.names hu with ⟨n, hn, hp, -, hlook⟩ | ⟨-, hlook⟩
  · obtain rfl := Option.some.inj (hlook.symm.trans hfind)
    have hopen : sh.storage.store.Owned n fd :=
      ⟨_, hs.file n hn, ((ent n).owned_iff fd).mpr howner⟩
    obtain ⟨-, hfits⟩ := hsound n ((named_iff_pathname hs h.wf.toSeqOk).mpr ⟨hn, hp⟩) hopen
    cases hlarge : oversize sh.storage n content with
    | true => exact .inl ((oversize_iff h hs hn).mp hlarge)
    | false =>
      right
      obtain ⟨V, sh₁, st', hfew, hev, hwf, -, -⟩ :=
        @update_run sh n content [] ⟨0, fd, .readFile []⟩ h.wf hopen hlarge (hfits hlarge)
      have hs₁ := (represents_evicted h hb hs hev hwf).1
      exact (evicted_room h hs hs₁ hfew hev hwf).2
  · rw [hlook] at hfind
    cases hfind

/-! ## What the owner is sent -/

/-- OPEN is refused, or the file is the client's. -/
theorem serve_openFile : (serve lim fd (.openFile p flag) l).2 = [.answer .ko] ∨
    ∃ a, a ≠ .ko ∧ (serve lim fd (.openFile p flag) l).2 = [.answer a] ∧
      Owns (serve lim fd (.openFile p flag) l).1 fd p := by
  by_cases hko : (openFile lim fd p flag l).2 = .ko
  · left
    show [Output.answer (openFile lim fd p flag l).2] = _
    rw [hko]
  · exact .inr ⟨_, hko, rfl, openFile_owns.resolve_left hko⟩

/-- An owner gets the file. -/
theorem serve_readFile (hnd : (l.map Entry.pathname).Nodup) (h : Owns l fd p) :
    ∃ e : Entry, (serve lim fd (.readFile p) l).2 = [e.output] := by
  obtain ⟨e, hfind, ho⟩ := lookup_of_owns hnd h
  refine ⟨e, ?_⟩
  show [readFile fd p l] = _
  unfold readFile
  rw [hfind]
  exact congrArg (fun o => [o]) (if_pos ho)

/-- An owner may close. -/
theorem serve_closeFile (hnd : (l.map Entry.pathname).Nodup) (h : Owns l fd p) :
    (serve lim fd (.closeFile p) l).2 = [.answer .ok] := by
  obtain ⟨e, hfind, ho⟩ := lookup_of_owns hnd h
  show [Output.answer (closeFile fd p l).2] = _
  unfold closeFile
  rw [hfind]
  exact congrArg (fun r => [Output.answer r]) (congrArg Prod.snd (if_pos ho))

end

end FileStorage.Service

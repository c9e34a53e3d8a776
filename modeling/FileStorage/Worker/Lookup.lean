import FileStorage.Worker.Alone

/-!
# Lookup by name

`searchFileNode` compares the searched name with each stored one through
`strncmp` bounded by the length of the searched name, so a node matches when
its name *starts with* the searched one (`matches_iff`). The search returns the
first match from `head` on.

`Exact st p` is a lookup that goes by the name itself, also seen from the
handlers: the file that OPEN, READ, APPEND or CLOSE goes on with is the file
`p`, and OPEN creates a file only when no file is called `p`.

That is the case exactly when no longer name hides `p` (`Unshadowed`): a file
whose name extends `p` stands behind the file `p`. Every insertion puts its
file in front, so `p` is hidden as soon as a longer name is created after it,
and also when `p` itself is not stored.
-/

namespace FileStorage.Worker.Lookup

open FileStorage.Lib FileStorage.Storage FileStorage.Worker FileStorage.Worker.Sequential
open FileStorage.Worker.Alone

/-- The file is stored under the name. -/
def Named (st : InfoStorage) (p : Bytes) (n : NodeId) : Prop :=
  ∃ f, st.file n = some f ∧ f.pathname = p

/-- No two stored files have one name. -/
def DistinctNames (st : InfoStorage) : Prop := ∀ p n m, Named st p n → Named st p m → n = m

/-- The name of the file stored here is longer than the searched one and starts
with it. -/
def Extends (st : InfoStorage) (p : Bytes) (n : NodeId) : Prop :=
  ∃ f, st.file n = some f ∧ p <+: f.pathname ∧ f.pathname ≠ p

/-- Every file whose name extends `p` stands behind the file `p`. -/
def Unshadowed (st : InfoStorage) (p : Bytes) : Prop :=
  ∀ l₁ m l₂, st.nodes = l₁ ++ m :: l₂ → Extends st p m → ∃ n ∈ l₁, Named st p n

/-- The name that a request is about. -/
def named : Op → Option Bytes
  | .openFile p _ | .readFile p | .appendToFile p _ | .closeFile p => some p
  | .closeConnection _ | .readNFiles _ => none

/-- The stored file that a handler has found and goes on with. -/
def target : Pc → Option NodeId
  | .openPoll n _ | .readPoll n _ | .readLocked n | .closePoll n _ => some n
  | .appPoll n _ _ | .appLocked n _ | .update n _ _ _ _ => some n
  | _ => none

/-- The lookup of `p` goes by the exact name. -/
structure Exact (st : InfoStorage) (p : Bytes) : Prop where
  found : ∀ n, Named st p n → searchFileNode p st = some (some n)
  absent : (∀ n, ¬ Named st p n) → searchFileNode p st = some none
  acts : ∀ rq sh pc sh', named rq.op = some p → sh.storage = st →
    Leads (aloneStep rq) (entry rq.op, sh) (pc, sh') →
    (∀ n, target pc = some n → Named st p n) ∧
      ∀ x, creating pc = some x → x.pathname = p ∧ ∀ n, ¬ Named st p n

section

variable {st : InfoStorage} {n m : NodeId} {p : Bytes} {f : File}

theorem matches_eq (h : st.file n = some f) :
    st.matches p n = strncmpEq f.pathname p p.length := by
  obtain ⟨node, hnode, rfl⟩ := heap_of_file h
  unfold InfoStorage.matches
  rw [hnode]
  rfl

/-- A node matches when its name starts with the searched one. -/
theorem matches_iff (n : NodeId) : st.matches p n = true ↔ Named st p n ∨ Extends st p n := by
  cases hf : st.file n with
  | none =>
    have hheap : st.heap n = none := by
      unfold InfoStorage.file at hf
      exact Option.map_eq_none_iff.mp hf
    constructor
    · intro h
      unfold InfoStorage.matches at h
      rw [hheap] at h
      cases h
    · intro h
      rcases h with ⟨g, hg, -⟩ | ⟨g, hg, -⟩
      · cases hf.symm.trans hg
      · cases hf.symm.trans hg
  | some f =>
    rw [matches_eq hf, strncmpEq_length]
    constructor
    · intro h
      by_cases heq : f.pathname = p
      · exact .inl ⟨f, hf, heq⟩
      · exact .inr ⟨f, hf, h, heq⟩
    · intro h
      rcases h with ⟨g, hg, heq⟩ | ⟨g, hg, hpre, -⟩
      · obtain rfl := Option.some.inj (hf.symm.trans hg)
        rw [heq]
      · obtain rfl := Option.some.inj (hf.symm.trans hg)
        exact hpre

theorem Named.not_extends (h : Named st p n) : ¬ Extends st p n := by
  intro he
  obtain ⟨f, hf, hp⟩ := h
  obtain ⟨g, hg, -, hne⟩ := he
  obtain rfl := Option.some.inj (hf.symm.trans hg)
  exact hne hp

theorem Named.mem (h : Named st p n) (hok : SeqOk st) : n ∈ st.nodes := by
  obtain ⟨f, hf, -⟩ := h
  exact (hok.rep.mem n).mpr (stored_iff_files.mpr ⟨f, hf⟩)

theorem Extends.mem (h : Extends st p n) (hok : SeqOk st) : n ∈ st.nodes := by
  obtain ⟨f, hf, -⟩ := h
  exact (hok.rep.mem n).mpr (stored_iff_files.mpr ⟨f, hf⟩)

theorem search_eq (h : SeqOk st) : searchFileNode p st = some (st.nodes.find? (st.matches p)) :=
  h.rep.search h.fresh h.balanced p

/-- Without a shadow the first match is the file `p`. -/
theorem find_of_unshadowed (hu : Unshadowed st p)
    (h : st.nodes.find? (st.matches p) = some n) : Named st p n := by
  obtain ⟨hn, l₁, l₂, hl, hbefore⟩ := List.find?_eq_some_iff_append.mp h
  rcases (matches_iff n).mp hn with hn | hn
  · exact hn
  · obtain ⟨a, ha, hname⟩ := hu l₁ n l₂ hl hn
    have hmatch := (matches_iff a).mpr (.inl hname)
    have hnot := hbefore a ha
    rw [hmatch] at hnot
    cases hnot

/-- Without a shadow the search returns the file `p`, or nothing when there is
none. -/
theorem search_of_unshadowed (h : SeqOk st) (hu : Unshadowed st p) :
    (∃ n, Named st p n ∧ searchFileNode p st = some (some n)) ∨
      ((∀ n, ¬ Named st p n) ∧ searchFileNode p st = some none) := by
  rw [search_eq h]
  cases hfind : st.nodes.find? (st.matches p) with
  | some n => exact .inl ⟨n, find_of_unshadowed hu hfind, rfl⟩
  | none =>
    refine .inr ⟨fun n hn => ?_, rfl⟩
    have hnot := List.find?_eq_none.mp hfind n (hn.mem h)
    exact hnot ((matches_iff n).mpr (.inl hn))

end

/-! ## What a handler goes on with -/

/-- The name that a handler is about to look up. -/
def looking : Pc → Option Bytes
  | .openSearch p _ | .readSearch p | .appSearch p _ | .closeSearch p => some p
  | _ => none

theorem looking_entry (op : Op) : looking (entry op) = named op := by
  cases op <;> rfl

section

variable {rq : Request} {pc pc' : Pc} {sh sh' : Shared} {p : Bytes}

/-- The handler goes on at `pc` with what the search for `p` has returned. -/
def Decided (st : InfoStorage) (p : Bytes) (pc : Pc) : Prop :=
  ∃ o, searchFileNode p st = some o ∧ (∀ n, target pc = some n → o = some n) ∧
    ∀ x, creating pc = some x → x.pathname = p ∧ o = none

theorem decided_ko {st : InfoStorage} {o : Option NodeId} (hs : searchFileNode p st = some o)
    (ht : target pc = none) (hc : creating pc = none) : Decided st p pc :=
  ⟨o, hs, (by simp [ht]), (by simp [hc])⟩

theorem decided_found {st : InfoStorage} {n : NodeId}
    (hs : searchFileNode p st = some (some n)) (ht : target pc = some n)
    (hc : creating pc = none) : Decided st p pc :=
  ⟨some n, hs, (fun _ hm => ht.symm.trans hm), (by simp [hc])⟩

/-- What the result of the search decides. -/
theorem look_step (h : aloneStep rq (pc, sh) = some (pc', sh')) (hpc : looking pc = some p) :
    looking pc' = none ∧ Decided sh.storage p pc' := by
  obtain ⟨-, ev, hw⟩ := aloneStep_cases h
  cases wstep_cases hw with
  | go hg =>
    cases hg with
    | openKo hs => cases hpc; exact ⟨rfl, decided_ko hs rfl rfl⟩
    | openNew hs =>
      cases hpc
      refine ⟨rfl, none, hs, (by intro n hn; cases hn), fun x hx => ?_⟩
      cases hx
      exact ⟨rfl, rfl⟩
    | openOld hs => cases hpc; exact ⟨rfl, decided_found hs rfl rfl⟩
    | readKo hs => cases hpc; exact ⟨rfl, decided_ko hs rfl rfl⟩
    | readFound hs => cases hpc; exact ⟨rfl, decided_found hs rfl rfl⟩
    | appKo hs => cases hpc; exact ⟨rfl, decided_ko hs rfl rfl⟩
    | appFound hs => cases hpc; exact ⟨rfl, decided_found hs rfl rfl⟩
    | closeKo hs => cases hpc; exact ⟨rfl, decided_ko hs rfl rfl⟩
    | closeFound hs => cases hpc; exact ⟨rfl, decided_found hs rfl rfl⟩
    | _ => cases hpc
  | _ => cases hpc

theorem looked_trans {A : Bytes → Prop} {s s' : Store} {q : Option Pc} {ev : Option Event}
    (h : Trans rq A pc s q s' ev) (hq : q = some pc') (hpc : looking pc = none) :
    looking pc' = none ∧ (∀ n, target pc' = some n → target pc = some n) ∧
      ∀ x, creating pc' = some x → creating pc = some x := by
  cases h with
  | openNew => cases hpc
  | openOld => cases hpc
  | readFound => cases hpc
  | appFound => cases hpc
  | closeFound => cases hpc
  | _ =>
    cases hq <;> first
      | exact ⟨rfl, fun n hn => hn, fun x hx => hx⟩
      | exact ⟨rfl, (by intro n hn; cases hn), (by intro x hx; cases hx)⟩

/-- A handler looks its file up once, and goes on with what it has found. -/
theorem looked_step (h : aloneStep rq (pc, sh) = some (pc', sh')) (hpc : looking pc = none) :
    looking pc' = none ∧ (∀ n, target pc' = some n → target pc = some n) ∧
      ∀ x, creating pc' = some x → creating pc = some x := by
  obtain ⟨-, ev, hw⟩ := aloneStep_cases h
  exact looked_trans (wstep_trans hw) rfl hpc

/-- Before its search a handler has no file. -/
theorem looking_first (h : looking pc = some p) : target pc = none ∧ creating pc = none := by
  cases pc with
  | openSearch q flag => exact ⟨rfl, rfl⟩
  | readSearch q => exact ⟨rfl, rfl⟩
  | appSearch q content => exact ⟨rfl, rfl⟩
  | closeSearch q => exact ⟨rfl, rfl⟩
  | _ => cases h

/-- In a whole request the handler goes on with the result of one search. -/
theorem acts_of_search {o : Option NodeId} (hop : named rq.op = some p)
    (ho : searchFileNode p sh.storage = some o)
    (h : Leads (aloneStep rq) (entry rq.op, sh) (pc, sh')) :
    (∀ n, target pc = some n → o = some n) ∧
      ∀ x, creating pc = some x → x.pathname = p ∧ o = none := by
  have hlook : looking (entry rq.op) = some p := (looking_entry rq.op).trans hop
  have hall : (pc, sh') = (entry rq.op, sh) ∨ (looking pc = none ∧
      (∀ n, target pc = some n → o = some n) ∧
      ∀ x, creating pc = some x → x.pathname = p ∧ o = none) := by
    refine Leads.invariant (fun s => s = (entry rq.op, sh) ∨ (looking s.1 = none ∧
      (∀ n, target s.1 = some n → o = some n) ∧
      ∀ x, creating s.1 = some x → x.pathname = p ∧ o = none)) (.inl rfl) ?_ h
    intro s t hs hst
    obtain ⟨pc₁, sh₁⟩ := s
    obtain ⟨pc₂, sh₂⟩ := t
    rcases hs with heq | ⟨hpc, htar, hcre⟩
    · -- the first step is the search
      obtain ⟨rfl, rfl⟩ := Prod.mk.inj heq
      obtain ⟨hnone, o', ho', htar, hcre⟩ := look_step hst hlook
      obtain rfl := Option.some.inj (ho.symm.trans ho')
      exact .inr ⟨hnone, htar, hcre⟩
    · obtain ⟨hnone, htar', hcre'⟩ := looked_step hst hpc
      exact .inr ⟨hnone, fun n hn => htar n (htar' n hn), fun x hx => hcre x (hcre' x hx)⟩
  rcases hall with heq | ⟨-, htar, hcre⟩
  · obtain ⟨rfl, -⟩ := Prod.mk.inj heq
    obtain ⟨htar, hcre⟩ := looking_first hlook
    rw [htar, hcre]
    exact ⟨(by intro n hn; cases hn), (by intro x hx; cases hx)⟩
  · exact ⟨htar, hcre⟩

end

/-! ## The exact name -/

theorem named_iff {st : InfoStorage} {p : Bytes} {n : NodeId} :
    Named st p n ↔ (st.file n).map (·.pathname) = some p := by
  constructor
  · intro h
    obtain ⟨f, hf, rfl⟩ := h
    rw [hf]
    rfl
  · intro h
    obtain ⟨f, hf, hp⟩ := Option.map_eq_some_iff.mp h
    exact ⟨f, hf, hp⟩

/-- Names that differ along the list differ. -/
theorem distinctNames_of_nodup {st : InfoStorage} (h : SeqOk st)
    (hd : (st.nodes.map (pathname st)).Nodup) : DistinctNames st := by
  intro p n m hn hm
  have hname : ∀ {a}, Named st p a → pathname st a = p := by
    intro a ha
    unfold pathname
    rw [named_iff.mp ha]
    rfl
  exact List.inj_on_of_nodup_map hd (hn.mem h) (hm.mem h) ((hname hn).trans (hname hm).symm)

/-- The newest file is not hidden. -/
theorem unshadowed_newest {st : InfoStorage} {p : Bytes} {n : NodeId} {l : List NodeId}
    (hl : st.nodes = n :: l) (hn : Named st p n) : Unshadowed st p := by
  intro l₁ m l₂ hnodes hext
  cases l₁ with
  | nil =>
    obtain ⟨rfl, -⟩ := List.cons.inj (hl.symm.trans hnodes)
    exact absurd hext hn.not_extends
  | cons a l₁ =>
    obtain ⟨rfl, -⟩ := List.cons.inj (hl.symm.trans hnodes)
    exact ⟨n, List.mem_cons_self .., hn⟩

/-- **A lookup goes by the exact name if and only if no longer name hides it.** -/
theorem searchFileNode_exact_iff {st : InfoStorage} (h : WellFormed st) (hd : DistinctNames st)
    (p : Bytes) : Exact st p ↔ Unshadowed st p := by
  have hok := h.toSeqOk
  constructor
  · intro he l₁ m l₂ hl hext
    have hm : st.matches p m = true := (matches_iff m).mpr (.inr hext)
    by_cases hex : ∃ n, Named st p n
    · obtain ⟨n, hn⟩ := hex
      have hfind : st.nodes.find? (st.matches p) = some n :=
        Option.some.inj ((search_eq hok).symm.trans (he.found n hn))
      rw [hl, List.find?_append, List.find?_cons_of_pos hm] at hfind
      cases hfront : l₁.find? (st.matches p) with
      | some a =>
        rw [hfront] at hfind
        obtain rfl := Option.some.inj hfind
        exact ⟨a, List.mem_of_find?_eq_some hfront, hn⟩
      | none =>
        rw [hfront] at hfind
        obtain rfl := Option.some.inj hfind
        exact absurd hext hn.not_extends
    · have hnone := he.absent fun n hn => hex ⟨n, hn⟩
      have hfind : st.nodes.find? (st.matches p) = none :=
        Option.some.inj ((search_eq hok).symm.trans hnone)
      exact absurd hm (List.find?_eq_none.mp hfind m (hext.mem hok))
  · intro hu
    rcases search_of_unshadowed hok hu with ⟨n, hn, hs⟩ | ⟨hnone, hs⟩
    · refine ⟨fun m hm => ?_, fun hno => absurd hn (hno n), fun rq sh pc sh' hop hsh hrun => ?_⟩
      · rw [hs, hd p n m hn hm]
      · subst hsh
        obtain ⟨htar, hcre⟩ := acts_of_search hop hs hrun
        refine ⟨fun m hm => ?_, fun x hx => ?_⟩
        · obtain rfl := Option.some.inj (htar m hm)
          exact hn
        · cases (hcre x hx).2
    · refine ⟨fun m hm => absurd hm (hnone m), fun _ => hs, fun rq sh pc sh' hop hsh hrun => ?_⟩
      subst hsh
      obtain ⟨htar, hcre⟩ := acts_of_search hop hs hrun
      refine ⟨fun m hm => ?_, fun x hx => ⟨(hcre x hx).1, hnone⟩⟩
      cases htar m hm

/-- With `/ab` created before `/a`, the lookup of `/a` is exact. -/
theorem searchFileNode_exact_newest :
    ∃ st, WellFormed st ∧ DistinctNames st ∧ Named st [47, 97, 98] 0 ∧ Exact st [47, 97] := by
  obtain ⟨s, hr, hp⟩ := Reach.of_guarded_test step sound (init 10 2)
    [.call (.insertCreateFile [47, 97, 98] 4), .work, .work,
      .call (.insertCreateFile [47, 97] 4), .work, .work]
    (fun s => s.shared.storage.nodes == [1, 0] &&
      ((s.shared.storage.file 0).map (·.pathname) == some [47, 97, 98] &&
        (s.shared.storage.file 1).map (·.pathname) == some [47, 97])) (by decide +kernel)
  simp only [Bool.and_eq_true, beq_iff_eq] at hp
  obtain ⟨hnodes, h0, h1⟩ := hp
  have hwf := wellFormed_reach (by decide) hr
  have hd : DistinctNames s.shared.storage := by
    refine distinctNames_of_nodup hwf.toSeqOk ?_
    rw [hnodes]
    simp [pathname, h0, h1]
  refine ⟨s.shared.storage, hwf, hd, named_iff.mpr h0, ?_⟩
  exact (searchFileNode_exact_iff hwf hd _).mpr (unshadowed_newest hnodes (named_iff.mpr h1))

/-- With `/ab` created after `/a`, the lookup of `/a` returns `/ab`. -/
theorem searchFileNode_finds_longer_name :
    ∃ st, WellFormed st ∧ DistinctNames st ∧ Named st [47, 97] 0 ∧ Named st [47, 97, 98] 1 ∧
      searchFileNode [47, 97] st = some (some 1) ∧ ¬ Exact st [47, 97] := by
  obtain ⟨s, hr, hp⟩ := Reach.of_guarded_test step sound (init 10 2)
    [.call (.insertCreateFile [47, 97] 4), .work, .work,
      .call (.insertCreateFile [47, 97, 98] 4), .work, .work]
    (fun s => s.shared.storage.nodes == [1, 0] &&
      ((s.shared.storage.file 0).map (·.pathname) == some [47, 97] &&
        (s.shared.storage.file 1).map (·.pathname) == some [47, 97, 98]) &&
      searchFileNode [47, 97] s.shared.storage == some (some 1)) (by decide +kernel)
  simp only [Bool.and_eq_true, beq_iff_eq] at hp
  obtain ⟨⟨hnodes, h0, h1⟩, hs⟩ := hp
  have hwf := wellFormed_reach (by decide) hr
  have hd : DistinctNames s.shared.storage := by
    refine distinctNames_of_nodup hwf.toSeqOk ?_
    rw [hnodes]
    simp [pathname, h0, h1]
  refine ⟨s.shared.storage, hwf, hd, named_iff.mpr h0, named_iff.mpr h1, hs, fun he => ?_⟩
  cases hs.symm.trans (he.found 0 (named_iff.mpr h0))

end FileStorage.Worker.Lookup

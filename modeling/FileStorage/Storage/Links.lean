import FileStorage.Storage.Total
import FileStorage.Lib.Chain

/-!
# What the sections do to the links

`Relinked` and `LinkedIn` describe the link maps after a removal and after an
insertion, one constructor for each branch of the source; no other section
touches a link (`SameLinks`). Whatever the links look like before, this much is
kept by every section: `Descending`. A son is always an older node, because a
node gets its son when it is inserted and afterwards only loses it.

That is enough to trust a *failed* search in every run, also after a relinking
has gone wrong (`absent_names`): the walk of `searchFileNode` looks at as many
nodes as are stored, each of them stored, and it cannot meet one twice since it
only goes to older nodes. So it has met them all.
-/

namespace FileStorage.Storage

open FileStorage.Lib

variable {st st' : InfoStorage} {n m : NodeId} {node x : Node} {r : Removal}
variable {rmPath p : Bytes} {k : Int} {fd : Int} {content : Bytes}

/-! ## Links of a changed heap -/

theorem son_of_heap (h : st.heap n = some node) : st.son n = node.son := by
  unfold InfoStorage.son; rw [h]; rfl

theorem father_of_heap (h : st.heap n = some node) : st.father n = node.father := by
  unfold InfoStorage.father; rw [h]; rfl

/-- What is put into a cell shows in the links of that cell only. -/
theorem son_update (heap : NodeId → Option Node) (n : NodeId) (x : Option Node) :
    (fun m => (Function.update heap n x m).bind Node.son)
      = Function.update (fun m => (heap m).bind Node.son) n (x.bind Node.son) :=
  Function.comp_update (Option.bind · Node.son) heap n x

theorem father_update (heap : NodeId → Option Node) (n : NodeId) (x : Option Node) :
    (fun m => (Function.update heap n x m).bind Node.father)
      = Function.update (fun m => (heap m).bind Node.father) n (x.bind Node.father) :=
  Function.comp_update (Option.bind · Node.father) heap n x

/-- Writing fields that are no links keeps the links. -/
theorem son_modify {g : Node → Node} (hg : ∀ x, (g x).son = x.son) :
    (st.modify n g).son = st.son := by
  refine (son_update st.heap n _).trans ?_
  rw [Option.bind_map, show Node.son ∘ g = Node.son from funext hg]
  exact Function.update_eq_self n st.son

/-- A write that leaves the link of a node alone leaves all links. -/
theorem father_modify {g : Node → Node} (hg : ∀ x, (g x).father = x.father) :
    (st.modify n g).father = st.father := by
  refine (father_update st.heap n _).trans ?_
  rw [Option.bind_map, show Node.father ∘ g = Node.father from funext hg]
  exact Function.update_eq_self n st.father

/-- A freed node has no links. -/
theorem son_free : (st.free n).son = Function.update st.son n none := son_update st.heap n none

theorem father_free : (st.free n).father = Function.update st.father n none :=
  father_update st.heap n none

/-- The links, and which nodes are linked, are what they were. -/
structure SameLinks (st st' : InfoStorage) : Prop where
  son : st'.son = st.son
  father : st'.father = st.father
  head : st'.head = st.head
  last : st'.last = st.last
  brk : st'.brk = st.brk
  stored : ∀ n, st'.Stored n ↔ st.Stored n

theorem SameLinks.refl (st : InfoStorage) : SameLinks st st :=
  ⟨rfl, rfl, rfl, rfl, rfl, fun _ => Iff.rfl⟩

/-- A write to the other fields of a node. -/
theorem sameLinks_modify {g : Node → Node} (hs : ∀ x, (g x).son = x.son)
    (hf : ∀ x, (g x).father = x.father) : SameLinks st (st.modify n g) := by
  refine ⟨son_modify hs, father_modify hf, rfl, rfl, rfl, fun m => ?_⟩
  show (Function.update st.heap n _ m).isSome = true ↔ (st.heap m).isSome = true
  by_cases hm : m = n
  · subst hm
    rw [Function.update_self, Option.isSome_map]
  · rw [Function.update_of_ne hm]

/-- The sections of OPEN, CLOSE FILE, READ N and APPEND write no link. -/
theorem sameLinks_openSection (h : openSection st n fd = some (some st')) : SameLinks st st' := by
  unfold openSection at h
  cases hn : st.heap n with
  | none => simp [hn] at h
  | some node =>
    simp only [hn, Option.bind_eq_bind, Option.bind_some] at h
    split at h
    · simp only [Option.some.injEq] at h
      exact h ▸ sameLinks_modify (fun _ => rfl) (fun _ => rfl)
    · simp at h

theorem sameLinks_closeSection (h : closeSection st n fd = some (some st')) :
    SameLinks st st' := by
  unfold closeSection at h
  cases hn : st.heap n with
  | none => simp [hn] at h
  | some node =>
    simp only [hn, Option.bind_eq_bind, Option.bind_some] at h
    split at h
    · simp only [Option.some.injEq] at h
      exact h ▸ sameLinks_modify (fun _ => rfl) (fun _ => rfl)
    · simp at h

theorem sameLinks_readNSection (h : readNSection st n = some (node, st')) :
    SameLinks st st' := by
  unfold readNSection at h
  cases hn : st.heap n with
  | none => simp [hn] at h
  | some x =>
    simp only [hn, Option.bind_eq_bind, Option.bind_some] at h
    split at h
    · simp only [Option.some.injEq, Prod.mk.injEq] at h
      exact h.2 ▸ SameLinks.refl st
    · simp only [Option.some.injEq, Prod.mk.injEq] at h
      exact h.2 ▸ sameLinks_modify (fun _ => rfl) (fun _ => rfl)

theorem sameLinks_updateSection (h : updateSection st n fd content = some (some st')) :
    SameLinks st st' := by
  unfold updateSection at h
  cases hn : st.heap n with
  | none => simp [hn] at h
  | some node =>
    simp only [hn, Option.bind_eq_bind, Option.bind_some] at h
    split at h
    · simp at h
    · simp only [Option.some.injEq] at h
      subst h
      have hsame : SameLinks st (st.modify n fun x =>
          { x with
            contentFile := x.contentFile.take x.fileSz.toNat ++ content
            fileSz := x.fileSz + content.length
            modified := 1 }) := sameLinks_modify (fun _ => rfl) (fun _ => rfl)
      exact ⟨hsame.son, hsame.father, hsame.head, hsame.last, hsame.brk, hsame.stored⟩

/-! ## Removal -/

/-- The links after `removeFile` has removed `n` from `st`, by the branch it
took, with the cursor it hands back. -/
inductive Relinked (st : InfoStorage) (n : NodeId) (st' : InfoStorage) (cur : Ptr) : Prop
  | only (hs : st.son n = none) (hf : st.father n = none)
      (head : st'.head = none) (last : st'.last = none)
      (son : st'.son = Function.update st.son n none)
      (father : st'.father = Function.update st.father n none) (cursor : cur = none)
  | last {f : NodeId} (hs : st.son n = none) (hf : st.father n = some f)
      (head : st'.head = st.head) (last : st'.last = some f)
      (son : st'.son = Function.update (Function.update st.son f none) n none)
      (father : st'.father = Function.update st.father n none) (cursor : cur = some f)
  | head {s : NodeId} (hs : st.son n = some s) (hf : st.father n = none)
      (head : st'.head = some s) (last : st'.last = st.last)
      (son : st'.son = Function.update st.son n none)
      (father : st'.father = Function.update (Function.update st.father s none) n none)
      (cursor : cur = none)
  | middle {s f : NodeId} (hs : st.son n = some s) (hf : st.father n = some f)
      (head : st'.head = st.head) (last : st'.last = st.last)
      (son : st'.son = Function.update st.son n none)
      (father : st'.father = Function.update st.father n none) (cursor : cur = some s)

/-- `removeFile` takes out the node that it is given. -/
theorem relinked_removeFile (h : removeFile n rmPath st k = some (some r)) :
    Relinked st n r.storage r.currentFile := by
  unfold removeFile at h
  cases hn : st.heap n with
  | none => simp [hn] at h
  | some node =>
    simp only [hn, Option.bind_eq_bind, Option.bind_some] at h
    by_cases he : evictable node.toFile = true
    · rw [if_pos he] at h
      have hson := son_of_heap hn
      have hfather := father_of_heap hn
      unfold unlink at h
      cases hs : node.son with
      | none =>
        cases hf : node.father with
        | none =>
          simp only [hs, hf, Option.bind_some, Option.some.injEq] at h
          subst h
          exact .only (hson.trans hs) (hfather.trans hf) rfl rfl son_free father_free rfl
        | some f =>
          cases hx : st.heap f with
          | none => simp [hs, hf, hx] at h
          | some x =>
            simp only [hs, hf, hx, Option.bind_eq_bind, Option.bind_some, Option.some.injEq] at h
            subst h
            have h1 : (st.modify f fun x => { x with son := none }).son
                = Function.update st.son f none := by
              refine (son_update st.heap f _).trans ?_
              rw [hx]; rfl
            have h2 : (st.modify f fun x => { x with son := none }).father = st.father :=
              father_modify fun _ => rfl
            refine .last (hson.trans hs) (hfather.trans hf) rfl rfl ?_ ?_ rfl
            · rw [← h1]; exact son_free
            · rw [← h2]; exact father_free
      | some s =>
        cases hf : node.father with
        | none =>
          cases hx : st.heap s with
          | none => simp [hs, hf, hx] at h
          | some x =>
            simp only [hs, hf, hx, Option.bind_eq_bind, Option.bind_some, Option.some.injEq] at h
            subst h
            have h1 : (st.modify s fun x => { x with father := none }).father
                = Function.update st.father s none := by
              refine (father_update st.heap s _).trans ?_
              rw [hx]; rfl
            have h2 : (st.modify s fun x => { x with father := none }).son = st.son :=
              son_modify fun _ => rfl
            refine .head (hson.trans hs) (hfather.trans hf) rfl rfl ?_ ?_ rfl
            · rw [← h2]; exact son_free
            · rw [← h1]; exact father_free
        | some f =>
          simp only [hs, hf, Option.bind_some, Option.some.injEq] at h
          subst h
          refine .middle (hson.trans hs) (hfather.trans hf) rfl rfl ?_ ?_ rfl
          · refine son_free.trans ?_
            rw [show (st.modify n fun _ => _).son = _ from son_update st.heap n _]
            exact Function.update_idem ..
          · refine father_free.trans ?_
            rw [show (st.modify n fun _ => _).father = _ from father_update st.heap n _]
            exact Function.update_idem ..
    · rw [if_neg he] at h
      simp at h

/-- A file that is too large takes itself out. -/
theorem relinked_oversizeSection (h : oversizeSection st n rmPath k = some r) :
    Relinked st n r.storage r.currentFile := by
  unfold oversizeSection at h
  cases hn : st.heap n with
  | none => simp [hn] at h
  | some node =>
    simp only [hn, Option.bind_eq_bind, Option.bind_some] at h
    cases hr : removeFile n rmPath
        (st.modify n (fun x => { x with fdClientId := -1, modified := 1 })) k with
    | none => simp [hr] at h
    | some o =>
      simp only [hr, Option.bind_some] at h
      subst h
      have hs : (st.modify n fun x => { x with fdClientId := -1, modified := 1 }).son = st.son :=
        son_modify fun _ => rfl
      have hf : (st.modify n fun x => { x with fdClientId := -1, modified := 1 }).father
          = st.father := father_modify fun _ => rfl
      have hlinks := relinked_removeFile hr
      cases hlinks with
      | only a b c d e f g => exact .only (hs ▸ a) (hf ▸ b) c d (hs ▸ e) (hf ▸ f) g
      | last a b c d e f g => exact .last (hs ▸ a) (hf ▸ b) c d (hs ▸ e) (hf ▸ f) g
      | head a b c d e f g => exact .head (hs ▸ a) (hf ▸ b) c d (hs ▸ e) (hf ▸ f) g
      | middle a b c d e f g => exact .middle (hs ▸ a) (hf ▸ b) c d (hs ▸ e) (hf ▸ f) g

/-! ## Insertion -/

/-- The links after a new node was put in front of the head. -/
inductive LinkedIn (st st' : InfoStorage) : Prop
  | first (hh : st.head = none) (hl : st.last = none)
      (head : st'.head = some st.brk) (last : st'.last = some st.brk)
      (son : st'.son = Function.update st.son st.brk none)
      (father : st'.father = Function.update st.father st.brk none)
  | front {t : NodeId} (hh : st.head = some t) (ht : st.Stored t)
      (head : st'.head = some st.brk) (last : st'.last = st.last)
      (son : st'.son = Function.update st.son st.brk (some t))
      (father : st'.father = Function.update (Function.update st.father t (some st.brk)) st.brk none)

/-- A new file is linked in as the head. -/
theorem linkedIn_insertSection (h : insertSection st x = some st') (hs : x.son = none)
    (hf : x.father = none) : LinkedIn st st' := by
  unfold insertSection at h
  by_cases hc : st.head = none ∧ st.last = none
  · rw [if_pos hc] at h
    simp only [Option.some.injEq] at h
    subst h
    refine .first hc.1 hc.2 rfl rfl ?_ ?_
    · rw [← hs]; exact son_update st.heap st.brk (some x)
    · rw [← hf]; exact father_update st.heap st.brk (some x)
  · rw [if_neg hc] at h
    cases hh : st.head with
    | none => simp [hh] at h
    | some t =>
      cases ht : st.heap t with
      | none => simp [hh, ht] at h
      | some y =>
        simp only [hh, ht, Option.bind_eq_bind, Option.bind_some, Option.some.injEq] at h
        subst h
        have h1 : (st.modify t fun x => { x with father := some st.brk }).son
            = st.son := son_modify fun _ => rfl
        have h2 : (st.modify t fun x => { x with father := some st.brk }).father
            = Function.update st.father t (some st.brk) := by
          refine (father_update st.heap t _).trans ?_
          rw [ht]; rfl
        refine .front hh (by unfold InfoStorage.Stored; rw [ht]; rfl) rfl rfl ?_ ?_
        · rw [← h1]; exact son_update _ st.brk (some { x with son := some t })
        · rw [← h2, ← hf]; exact father_update _ st.brk (some { x with son := some t })

/-! ## Sons are older -/

/-- A son is older than its father, and the head is a node handed out before. -/
structure Descending (st : InfoStorage) : Prop where
  son : ∀ n m, st.son n = some m → m < n
  head : ∀ n, st.head = some n → n < st.brk

/-- There is no link at first. -/
theorem descending_createStorage (ram nfile : Int) : Descending (createStorage ram nfile) :=
  ⟨(fun _ _ h => by cases h), (fun _ h => by cases h)⟩

/-- Around a node that is taken out, the links still go down. -/
theorem Descending.relinked {cur : Ptr} (h : Descending st) (hr : Relinked st n st' cur)
    (hn : n < st.brk) (hb : st'.brk = st.brk) : Descending st' := by
  -- a link that is not cut is the old one
  have cut : ∀ {g : NodeId → Ptr} {a b c : NodeId}, Function.update g a none b = some c →
      g b = some c := by
    intro g a b c hg
    by_cases hba : b = a
    · rw [hba, Function.update_self] at hg
      cases hg
    · rwa [Function.update_of_ne hba] at hg
  cases hr with
  | only _ _ hhead _ hson =>
    refine ⟨fun a b hab => h.son a b (cut (hson ▸ hab)), fun a ha => ?_⟩
    rw [hhead] at ha; cases ha
  | last _ _ hhead _ hson =>
    exact ⟨fun a b hab => h.son a b (cut (cut (hson ▸ hab))),
      fun a ha => hb ▸ h.head a (hhead ▸ ha)⟩
  | head hs _ hhead _ hson =>
    refine ⟨fun a b hab => h.son a b (cut (hson ▸ hab)), fun a ha => ?_⟩
    rw [hhead] at ha
    obtain rfl := Option.some.inj ha
    rw [hb]
    exact Nat.lt_trans (h.son n _ hs) hn
  | middle _ _ hhead _ hson =>
    exact ⟨fun a b hab => h.son a b (cut (hson ▸ hab)), fun a ha => hb ▸ h.head a (hhead ▸ ha)⟩

/-- A new head is above all nodes, so its link goes down. -/
theorem Descending.linkedIn (h : Descending st) (hi : LinkedIn st st')
    (hb : st'.brk = st.brk + 1) : Descending st' := by
  have hnew : ∀ n, some st.brk = some n → n < st'.brk := by
    intro n hn
    obtain rfl := Option.some.inj hn
    rw [hb]
    exact Nat.lt_succ_self _
  cases hi with
  | first _ _ hhead _ hson =>
    refine ⟨fun a b hab => ?_, fun a ha => hnew a (hhead ▸ ha)⟩
    rw [hson] at hab
    by_cases hab' : a = st.brk
    · rw [hab', Function.update_self] at hab; cases hab
    · rw [Function.update_of_ne hab'] at hab; exact h.son a b hab
  | @front t hh _ hhead _ hson =>
    refine ⟨fun a b hab => ?_, fun a ha => hnew a (hhead ▸ ha)⟩
    rw [hson] at hab
    by_cases hab' : a = st.brk
    · rw [hab', Function.update_self] at hab
      obtain rfl := Option.some.inj hab
      rw [hab']
      exact h.head t hh
    · rw [Function.update_of_ne hab'] at hab; exact h.son a b hab

/-- Sections that write no link. -/
theorem Descending.sameLinks (h : Descending st) (hs : SameLinks st st') : Descending st' :=
  ⟨fun a b hab => h.son a b (hs.son ▸ hab), fun a ha => hs.brk ▸ h.head a (hs.head ▸ ha)⟩

/-! ## A failed search -/

/-- A failed walk has looked at `nb` nodes, all stored and none of that name. -/
theorem searchLoop_absent {nb : Nat} {c : Ptr} (h : searchLoop st p nb c = some none) :
    (follow st.son nb c).length = nb ∧
      ∀ n ∈ follow st.son nb c, ∃ f, st.store.files n = some f ∧ ¬ p <+: f.pathname := by
  induction nb generalizing c with
  | zero => simp [follow]
  | succ nb ih =>
    cases c with
    | none => simp [searchLoop] at h
    | some c =>
      unfold searchLoop at h
      cases hc : st.heap c with
      | none => simp [hc] at h
      | some node =>
        simp only [hc, Option.bind_eq_bind, Option.bind_some] at h
        split at h
        · simp at h
        · next hm =>
          obtain ⟨hlen, hall⟩ := ih h
          have hfollow : follow st.son (nb + 1) (some c) = c :: follow st.son nb node.son := by
            rw [follow, son_of_heap hc]
          rw [hfollow]
          refine ⟨by rw [List.length_cons, hlen], fun n hn => ?_⟩
          rcases List.mem_cons.mp hn with rfl | hn
          · exact ⟨node.toFile, file_of_heap hc, fun hp => hm ((strncmpEq_length _ _).mpr hp)⟩
          · exact hall n hn

/-- A failed search has met every stored file. -/
theorem absent_names (h : searchFileNode p st = some none) (hd : Descending st)
    (hb : st.store.Balanced) (hfresh : st.store.Fresh) :
    ∀ n f, st.store.files n = some f → ¬ p <+: f.pathname := by
  obtain ⟨hlen, hall⟩ := searchLoop_absent h
  intro n f hn
  have hmem : n ∈ follow st.son (st.nfileTot - st.nfileDispo).toNat st.head := by
    refine Store.mem_of_count hfresh (follow_nodup hd.son) ?_ (fun m hm => ?_) hn
    · have hcount : st.store.total (fun _ => 1) = st.nfileTot - st.nfileDispo := hb.nfile
      rw [hcount, hlen]
    · obtain ⟨g, hg, -⟩ := hall m hm
      exact ⟨g, hg⟩
  obtain ⟨g, hg, hp⟩ := hall n hmem
  rw [hn] at hg
  rw [Option.some.inj hg]
  exact hp

end FileStorage.Storage

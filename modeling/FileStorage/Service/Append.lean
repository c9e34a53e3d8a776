import FileStorage.Service.Handlers

/-!
# APPEND serves the cache

`UpdateFile` evicts while its scan meets files that may go. Those are the front
of all the files that may go, so when they are enough they are the fewest that
will do (`evicted_eq`), and the file that grows is none of them.
-/

namespace FileStorage.Service

open FileStorage.Lib FileStorage.Storage FileStorage.Worker FileStorage.Worker.Sequential
open FileStorage.Worker.Alone FileStorage.Worker.Lookup FileStorage.Worker.Scan
open FileStorage.Worker.Room

section

variable {lim : Limits} {rq : Request} {sh sh' : Shared} {l : List Entry}
variable {ent : NodeId → Entry} {n : NodeId} {p content : Bytes} {st' : InfoStorage}

/-- The files that are left after evictions. -/
theorem represents_evicted {V : List NodeId} (h : Represents sh lim l) (hb : Bounded lim l)
    (hs : Shows sh.storage.nodes sh.storage.file ent l) (he : Evicted V sh sh')
    (hwf : WellFormed sh'.storage) :
    Shows sh'.storage.nodes sh'.storage.file ent
        (without Entry.pathname (V.map fun m => (ent m).pathname) l) ∧
      Represents sh' lim (without Entry.pathname (V.map fun m => (ent m).pathname) l) := by
  have hV : ∀ m ∈ V, m ∈ sh.storage.nodes := fun m hm => (h.wf.rep.mem m).mpr (he.stored m hm)
  have hleft : Shows sh'.storage.nodes sh'.storage.file ent
      (without Entry.pathname (V.map fun m => (ent m).pathname) l) := by
    rw [he.nodes]
    refine (hs.without hb.names hV).congr fun m hm => ?_
    rw [he.file, if_neg (by simpa using (List.mem_filter.mp hm).2)]
  exact ⟨hleft, hwf, he.ramTot.trans h.ram, he.nfileTot.trans h.slots,
    he.sockname.trans h.sockname, ent, hleft⟩

/-- The file that has grown, and the others. -/
theorem represents_append (h : Represents sh lim l) (hb : Bounded lim l)
    (hs : Shows sh.storage.nodes sh.storage.file ent l) (hn : n ∈ sh.storage.nodes)
    (hup : updateSection sh.storage n rq.fd content = some (some st')) :
    Represents (sh.setStorage st') lim
      (edit Entry.pathname [(ent n).pathname] (Entry.extend content) l) := by
  obtain ⟨f, hf, -, hst⟩ := store_updateSection hup
  have hlinks := sameLinks_updateSection hup
  have hfile := hs.file n hn
  have hnfile : st'.nfileDispo = sh.storage.nfileDispo := congrArg Store.nfileDispo hst
  have hok : SeqOk st' := by
    refine h.wf.toSeqOk.sameLinks hlinks ?_ ?_ ?_
    · exact hst ▸ h.wf.fresh.append
    · exact hst ▸ h.wf.balanced.append h.wf.fresh hf content
    · exact hnfile ▸ h.wf.room
  refine ⟨⟨hok, ?_⟩, (congrArg Store.ramTot hst).trans h.ram,
    (congrArg Store.nfileTot hst).trans h.slots, h.sockname,
    fun m => if m ∈ [n] then Entry.extend content (ent m) else ent m, ?_⟩
  · show st'.store.Sized
    rw [hst]
    exact h.wf.sized.append
  · show Shows st'.nodes st'.file _ _
    rw [nodes_sameLinks hlinks]
    refine hs.edit (V := [n]) hb.names (fun m hm => ?_) (fun m hm => ?_)
    · rwa [List.mem_singleton.mp hm]
    · show st'.store.files m = _
      rw [hst]
      by_cases hm : m ∈ [n]
      · rw [if_pos hm, List.mem_singleton.mp hm, Store.files_append_self hfile,
          h.wf.sized.append_content hfile]
        unfold Entry.file Entry.extend Entry.size
        rw [List.length_append, Nat.cast_add]
        rfl
      · rw [if_neg hm]
        exact Store.files_append_ne fun he => hm (List.mem_singleton.mpr he)

/-- The files that the scan evicts are the fewest that will do. -/
theorem evicted_eq {V : List NodeId} (h : Represents sh lim l)
    (hs : Shows sh.storage.nodes sh.storage.file ent l)
    (hfew : Fewest sh.storage content.length (evictables sh.storage) V) :
    evicted lim content l = V.map ent := by
  have hneed : (content.length : Int) - (lim.ram - bytesOf l) =
      content.length - sh.storage.ramDispo := by
    rw [ramDispo_eq hs h.wf.toSeqOk, h.ram]
  have hsize : ∀ m ∈ evictables sh.storage, (ent m).size = sh.storage.fileSz m := by
    intro m hm
    have hmem : m ∈ sh.storage.nodes := List.mem_reverse.mp (List.mem_filter.mp hm).1
    exact (fileSz_eq (hs.file m hmem)).symm
  unfold evicted
  rw [hneed, removables_eq hs, fewest_map]
  refine congrArg (List.map ent) ?_
  rw [fewest_congr hsize]
  refine fewest_unique hfew.front ?_ fun W hW hne => ?_
  · have henough := hfew.enough
    unfold gain at henough
    omega
  · have hneeded := hfew.needed W hW hne
    unfold gain at hneeded
    omega

/-- Their names, and the room behind their evictions. -/
theorem evicted_room {V : List NodeId} {sh₁ : Shared} (h : Represents sh lim l)
    (hs : Shows sh.storage.nodes sh.storage.file ent l)
    (hs₁ : Shows sh₁.storage.nodes sh₁.storage.file ent
      (without Entry.pathname (V.map fun m => (ent m).pathname) l))
    (hfew : Fewest sh.storage content.length (tailRun sh.storage) V) (hev : Evicted V sh sh₁)
    (hwf : WellFormed sh₁.storage) :
    namesOf (evicted lim content l) = (V.map fun m => (ent m).pathname) ∧
      bytesOf (without Entry.pathname (namesOf (evicted lim content l)) l) + content.length ≤
        lim.ram := by
  have hout : namesOf (evicted lim content l) = V.map fun m => (ent m).pathname := by
    rw [evicted_eq h hs (fewest_evictables hfew)]
    unfold namesOf
    rw [List.map_map]
    rfl
  refine ⟨hout, ?_⟩
  have hleft := ramDispo_eq hs₁ hwf.toSeqOk
  have henough := hfew.enough
  rw [hev.ramDispo, hev.ramTot, h.ram] at hleft
  rw [hout]
  omega

theorem oversize_iff (h : Represents sh lim l)
    (hs : Shows sh.storage.nodes sh.storage.file ent l) (hn : n ∈ sh.storage.nodes) :
    oversize sh.storage n content = true ↔
      lim.ram < content.length ∧ (ent n).written = false := by
  unfold oversize
  rw [hs.file n hn, h.ram, ← (ent n).written_iff]
  simp

/-- The call of `UpdateFile`, for the owner of the file. -/
theorem serves_update (h : Represents sh lim l) (hb : Bounded lim l)
    (hs : Shows sh.storage.nodes sh.storage.file ent l) (hn : n ∈ sh.storage.nodes)
    (howner : (ent n).owner = some rq.fd)
    (hinner : oversize sh.storage n content = true → sh.storage.inner n = false)
    (hfits : oversize sh.storage n content = false → (content.length : Int) ≤ scope sh.storage) :
    Serves lim rq (.update n content [] none .test) sh
      (extendFile lim (ent n) content l).1 [.answer (extendFile lim (ent n) content l).2] := by
  have hok := h.wf.toSeqOk
  have hfile := hs.file n hn
  have ho : sh.storage.store.Owned n rq.fd := ⟨_, hfile, ((ent n).owned_iff rq.fd).mpr howner⟩
  have hover := @oversize_iff lim sh l ent n content h hs hn
  unfold extendFile
  cases hlarge : oversize sh.storage n content with
  | true =>
    rw [if_pos (hover.mp hlarge)]
    obtain ⟨r, hr, htest, hdelete⟩ := @oversize_run sh n content [] none rq hok ho hlarge
    have hev := evicted_oversizeSection hok hr (hinner hlarge)
    have hwf : WellFormed r.storage := by
      obtain ⟨f, hf, hst, -⟩ := store_oversizeSection hr
      obtain ⟨l₁, l₂, hl⟩ := List.append_of_mem hn
      have hleft := hok.remove hl (relinked_oversizeSection hr) hf hst (hinner hlarge)
      exact ⟨hleft.1, hst ▸ h.wf.sized.remove⟩
    have hrep := (represents_evicted h hb hs hev hwf).2
    obtain ⟨sh', hends, hrep'⟩ := @serves_appStats _ rq _ _ hrep .ko
    exact ⟨sh', .call rfl (.next htest (.next hdelete (.refl ..))) hends, hrep'⟩
  | false =>
    rw [if_neg fun hyes => by rw [hover.mpr hyes] at hlarge; cases hlarge]
    obtain ⟨V, sh₁, st', hfew, hev, hwf, hup, hrun⟩ :=
      @update_run sh n content [] rq h.wf ho hlarge (hfits hlarge)
    obtain ⟨hnot, ho₁⟩ := owned_of_fewest ho hfew hev
    obtain ⟨hs₁, hrep₁⟩ := represents_evicted h hb hs hev hwf
    have hV : ∀ m ∈ V, m ∈ sh.storage.nodes := fun m hm => (hok.rep.mem m).mpr (hev.stored m hm)
    obtain ⟨hout, hroom⟩ := evicted_room h hs hs₁ hfew hev hwf
    have hn₁ : n ∈ sh₁.storage.nodes := by
      obtain ⟨f, hf, -⟩ := ho₁
      exact mem_nodes hwf.toSeqOk hf
    have hrep := represents_append hrep₁ (hb.without _) hs₁ hn₁ hup
    rw [hout] at hroom ⊢
    dsimp only
    rw [if_pos hroom, ← paths_eq hs hV]
    obtain ⟨sh', hends, hrep'⟩ :=
      @serves_appStats _ rq _ _ hrep (.okRemoved ([] ++ paths sh.storage V))
    exact ⟨sh', .call rfl hrun hends, hrep'⟩

theorem serves_appendToFile (h : Represents sh lim l) (hb : Bounded lim l)
    (hclean : Clean sh.storage rq.fd (.appendToFile p content)) :
    Serves lim rq (.appSearch p content) sh (appendToFile lim rq.fd p content l).1
      [.answer (appendToFile lim rq.fd p content l).2] := by
  obtain ⟨hu, hsound⟩ := hclean
  obtain ⟨ent, hs⟩ := h.shows
  unfold appendToFile
  rcases search_shows hs h.wf.toSeqOk hb.names hu with ⟨n, hn, hp, hfind, hlook⟩ | ⟨hfind, hlook⟩
  · have hsearch : wstep rq (.appSearch p content) sh = Worker.goto (.appPoll n 0 content) sh := by
      simp only [wstep, hfind]
    obtain ⟨node, hnode, hfile⟩ := node_of_shows hs hn
    have hfd : node.fdClientId = (ent n).file.fdClientId := congrArg File.fdClientId hfile
    rw [hlook]
    refine .goto hsearch ?_
    dsimp only
    by_cases howner : (ent n).owner = some rq.fd
    · rw [if_pos howner]
      have hmine : node.fdClientId = rq.fd := hfd.trans (((ent n).owned_iff rq.fd).mpr howner)
      have hpoll : wstep rq (.appPoll n 0 content) sh = Worker.goto (.appLocked n content) sh := by
        simp only [wstep, hnode]
        exact if_neg fun hne => hne.1 hmine
      have hlocked : wstep rq (.appLocked n content) sh =
          Worker.goto (.update n content [] none .test) sh := by
        simp only [wstep, hnode]
        exact if_neg fun hne => hne hmine
      have hopen : sh.storage.store.Owned n rq.fd :=
        ⟨_, hs.file n hn, ((ent n).owned_iff rq.fd).mpr howner⟩
      obtain ⟨hinner, hfits⟩ :=
        hsound n ((named_iff_pathname hs h.wf.toSeqOk).mpr ⟨hn, hp⟩) hopen
      exact .goto hpoll (.goto hlocked (serves_update h hb hs hn howner hinner hfits))
    · rw [if_neg howner]
      have hother : node.fdClientId ≠ rq.fd := fun he =>
        howner (((ent n).owned_iff rq.fd).mp (hfd.symm.trans he))
      have hlocked : wstep rq (.appLocked n content) sh = Worker.goto (.appStats .ko) sh := by
        simp only [wstep, hnode]
        exact if_pos hother
      refine Serves.poll (fun cnt => .appPoll n cnt content) TIMER (fun cnt => ?_)
        (.goto hlocked (serves_appStats h .ko))
      simp only [wstep, hnode]
      by_cases hlt : cnt < TIMER
      · rw [if_pos ⟨hother, hlt⟩, if_pos hlt]
      · rw [if_neg fun hboth => hlt hboth.2, if_neg hlt]
  · have hsearch : wstep rq (.appSearch p content) sh = Worker.goto (.appStats .ko) sh := by
      simp only [wstep, hfind]
    rw [hlook]
    exact .goto hsearch (serves_appStats h .ko)

end

end FileStorage.Service

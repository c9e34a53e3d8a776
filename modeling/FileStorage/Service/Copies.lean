import FileStorage.Service.Contents
import FileStorage.Service.Holding

/-!
# What a client reads is what the clients have copied

A client appends to a file only what it has just found in its file system under the
same path (`appends_are_copies`), and what it is told of a file is what the file was
brought since it was created. So whatever a client reads is put together from whole
files that clients have copied to the server from that path (`reads_are_copies`).
-/

namespace FileStorage.Service

open FileStorage.Lib FileStorage.Lib.Dialogue FileStorage.System FileStorage.Wire
open FileStorage.Client (Query Program)

section

variable {lim : Limits} {ram nfile : Int} {sockname : Bytes} {L : Nat} {closed : Prop}
variable {s : Clients} {k : Nat} {c : Call} {q : Query}

/-- The sockets and the server do not see what the clients ask their file systems. -/
theorem reach_net (h : Reach clientsStep (tidy lim L closed) (.init ram nfile sockname) s) :
    Reach netStep (orderly L) (.init ram nfile sockname) s.net := by
  induction h with
  | init => exact .init
  | @next s t label _ hg hs ih =>
    cases label with
    | connect fd nbRequest =>
      obtain ⟨u, hu, rfl⟩ := Option.map_eq_some_iff.mp hs
      exact .next (a := .connect fd) ih trivial hu
    | call k =>
      simp only [clientsStep] at hs
      split at hs
      · next q next hq =>
        obtain ⟨c, hc, hs⟩ := Option.bind_eq_some_iff.mp hs
        obtain ⟨u, hu, rfl⟩ := Option.map_eq_some_iff.mp hs
        exact .next ih (hg q next c hq hc) hu
      · cases hs
    | take fd sched =>
      obtain ⟨u, hu, rfl⟩ := Option.map_eq_some_iff.mp hs
      exact .next ih hg.1 hu
    | work fd =>
      obtain ⟨u, hu, rfl⟩ := Option.map_eq_some_iff.mp hs
      exact .next (a := .work fd) ih trivial hu
    | receive k sched =>
      obtain ⟨u, hu, hs⟩ := Option.bind_eq_some_iff.mp hs
      split at hs
      · obtain ⟨a, -, rfl⟩ := Option.map_eq_some_iff.mp hs
        exact .next (a := .receive k sched) ih hg hu
      · cases hs
    | inside k env =>
      simp only [clientsStep] at hs
      split at hs
      · split at hs
        · cases hs
          exact ih
        · cases hs
      · cases hs

theorem query_of_appendToFile {p buf : Bytes} (h : message q = some (.appendToFile p buf)) :
    q = .appendToFile p buf := by
  cases q with
  | openFile pathname flag => cases flag <;> cases h
  | appendToFile pathname content =>
    cases h
    rfl
  | _ => cases h

/-- **A client appends to a file what it has found under the path of the file.** -/
theorem appends_are_copies (hram : 0 ≤ ram) (hnfile : 1 ≤ nfile)
    (hfit : Fits ⟨ram, nfile, sockname⟩ L)
    (h : Reach clientsStep (tidy ⟨ram, nfile, sockname⟩ L closed) (.init ram nfile sockname) s)
    {p buf : Bytes} (hmem : .called k (.appendToFile p buf) ∈ s.net.log) : Copied s k p buf := by
  induction h with
  | init => exact (List.not_mem_nil hmem).elim
  | @next s t label hr hg hs ih =>
    have hother : ∀ ev : Exchange, (∀ c, .called k c ≠ ev) →
        .called k (.appendToFile p buf) ∈ ev :: s.net.log → Copied s k p buf := by
      intro ev hev hmem
      exact ih ((List.mem_cons.mp hmem).resolve_left (hev _))
    rcases clientsStep_cases hs with ⟨fd, nbRequest, -, -, rfl⟩ |
        ⟨k', q, next, c, -, hq, hmsg, hcalling, rfl⟩ | ⟨fd, sched, op, c, -, -, -, -, rfl⟩ |
        ⟨fd, j, e, -, -, -, rfl⟩ | ⟨k', sched, c, r, rest, q, next, a, -, -, -, -, -, -, rfl⟩ |
        ⟨k', env, q, next, -, -, -, rfl⟩
    · exact hother (.connected s.net.nextClient fd) nofun hmem
    · rcases List.mem_cons.mp hmem with he | hmem
      · cases he
        obtain rfl := query_of_appendToFile hmsg
        -- what it appends is what it has at hand
        obtain ⟨m, due, hand, -, hold⟩ := reach_holding hram hnfile hfit hr
        have hcourse := hold.course k
        rw [hq, hcalling] at hcourse
        obtain ⟨⟨-, hcontent⟩, -⟩ := hcourse.of_idle.2.1
        exact hold.read k p buf hcontent
      · exact ih hmem
    · exact hother (.taken (s.net.peer fd)) nofun hmem
    · exact ih hmem
    · exact List.mem_cons_of_mem _ (hother (.returned k' r) nofun hmem)
    · exact List.mem_cons_of_mem _ (ih hmem)

/-- What a client was told is what its call returned. -/
theorem returned_of_told (hram : 0 ≤ ram) (hnfile : 1 ≤ nfile)
    (hfit : Fits ⟨ram, nfile, sockname⟩ L)
    (h : Reach clientsStep (tidy ⟨ram, nfile, sockname⟩ L closed) (.init ram nfile sockname) s)
    {a : q.Answer} (hmem : (k, ⟨q, a⟩) ∈ s.told) (hmsg : message q = some c) :
    ∃ newer older r, s.net.log = newer ++ .returned k r :: older ∧ told q r = some a ∧
      lastCall k older = some c := by
  induction h with
  | init => exact (List.not_mem_nil hmem).elim
  | @next s t label hr hg hs ih =>
    have hlater : ∀ {u : Net} evs, u.log = evs ++ s.net.log → (k, ⟨q, a⟩) ∈ s.told →
        ∃ newer older r, u.log = newer ++ .returned k r :: older ∧ told q r = some a ∧
          lastCall k older = some c := by
      intro u evs hu hmem
      obtain ⟨newer, older, r, hlog, htold, hlast⟩ := ih hmem
      exact ⟨evs ++ newer, older, r, by rw [hu, hlog, List.append_assoc], htold, hlast⟩
    rcases clientsStep_cases hs with ⟨fd, nbRequest, -, -, rfl⟩ |
        ⟨k', q', next, c', -, -, -, -, rfl⟩ | ⟨fd, sched, op, c', -, -, -, -, rfl⟩ |
        ⟨fd, j, e, -, -, -, rfl⟩ |
        ⟨k', sched, c', r, rest, q', next, a', -, hcalling, -, -, hq, ha, rfl⟩ |
        ⟨k', env, q', next, -, -, hnone, rfl⟩
    · exact hlater [.connected s.net.nextClient fd] rfl hmem
    · exact hlater [.called k' c'] rfl hmem
    · exact hlater [.taken (s.net.peer fd)] rfl hmem
    · exact hlater [] rfl hmem
    · rcases List.mem_cons.mp hmem with he | hmem
      · cases he
        obtain ⟨m, due, hand, -, hold⟩ := reach_holding hram hnfile hfit hr
        have hcourse := hold.course k
        rw [hq, hcalling] at hcourse
        obtain ⟨q'', next', hq', hmsg'⟩ := hcourse.of_calling
        cases hq'
        obtain rfl := Option.some.inj (hmsg'.symm.trans hmsg)
        exact ⟨[], s.net.log, r, rfl, ha, lastCall_of_calling (reach_net hr) k c' hcalling⟩
      · exact hlater [.returned k' r] rfl hmem
    · rcases List.mem_cons.mp hmem with he | hmem
      · cases he
        rw [hnone] at hmsg
        cases hmsg
      · exact hlater [] rfl hmem

/-- READ FILE sends a file, or nothing. -/
theorem received_readFile {m : Atomic lim} {p : Bytes} {r : Received}
    (h : m.serves k = some (.readFile p, r)) :
    (∃ size buf, r = .content 0 size (some buf)) ∨ r = .content (-1) 0 none := by
  unfold Atomic.serves at h
  split at h
  · next c hasked =>
    cases h
    show (∃ size buf, received (.readFile p) [readFile (m.fd k) p m.cache.entries] = _) ∨
      received (.readFile p) [readFile (m.fd k) p m.cache.entries] = _
    unfold readFile
    split
    · split
      · exact .inl ⟨_, _, rfl⟩
      · exact .inr rfl
    · exact .inr rfl
  · cases h

end

/-- **What a client reads are whole files that clients have copied to the server** from the
same path: all that were accepted since the file was created, up to the point between
the call and its return at which the read was served. A read that is refused gives
nothing. -/
theorem reads_are_copies {ram nfile : Int} {sockname : Bytes} {L : Nat} {s : Clients}
    (hram : 0 ≤ ram) (hnfile : 1 ≤ nfile) (hfit : Fits ⟨ram, nfile, sockname⟩ L)
    (h : Reach clientsStep (tidy ⟨ram, nfile, sockname⟩ L False) (.init ram nfile sockname) s)
    (k : Nat) (p : Bytes) (ret : Int) (buf : Bytes)
    (hmem : (k, ⟨.readFile p, (ret, buf)⟩) ∈ s.told) :
    let m₀ : Atomic ⟨ram, nfile, sockname⟩ :=
      .empty _ hram (Int.le_trans (Int.zero_le_ofNat 1) hnfile)
    ∃ newer mid before m r,
      s.net.log = newer ++ .returned k r :: (mid ++ .taken k :: before) ∧
      (∀ c, .called k c ∉ mid) ∧ ServedAt m₀ before m k (.readFile p) r ∧
      (∀ c ∈ brought m₀ p before, ∃ k, Copied s k p c) ∧
      (ret = 0 ∧ buf = (brought m₀ p before).flatten ∨ ret = -1 ∧ buf = []) := by
  intro m₀
  obtain ⟨newer, older, r, hlog, htold, hlast⟩ := returned_of_told hram hnfile hfit h hmem rfl
  obtain ⟨m, hm, -⟩ := replay_of_reach hram hnfile hfit (reach_net h)
  rw [hlog] at hm
  obtain ⟨mid, before, m', rfl, hmid, hserved⟩ := (servedIn_of_replay _ _ hm).of_lastCall hlast
  refine ⟨newer, mid, before, m', r, hlog, hmid, hserved, fun c hc => ?_, ?_⟩
  · -- what was brought was called before the read was served
    obtain ⟨k', hcalled⟩ := called_of_brought _ _ hserved.cache hc
    refine ⟨k', appends_are_copies hram hnfile hfit h ?_⟩
    rw [hlog]
    exact List.mem_append_right _ (List.mem_cons_of_mem _
      (List.mem_append_right _ (List.mem_cons_of_mem _ hcalled)))
  · rcases received_readFile hserved.serves with ⟨size, buf', rfl⟩ | rfl
    · cases htold
      exact .inl ⟨rfl, (hserved.told p size buf' List.mem_cons_self).1⟩
    · cases htold
      exact .inr ⟨rfl, rfl⟩

/-- The second client reads what the first has written. -/
theorem reads_are_copies_two :
    ∃ s, Reach clientsStep (tidy ⟨10, 1, [115]⟩ 8 False) (.init 10 1 [115]) s ∧
      ∃ before, .taken 1 :: before <:+ s.net.log ∧
        (1, ⟨.readFile [47, 97], ((0, [120]) : Int × Bytes)⟩) ∈ s.told ∧
        (brought (.empty ⟨10, 1, [115]⟩ (by decide) (by decide)) [47, 97] before).flatten = [120] ∧
        ∀ c ∈ brought (.empty ⟨10, 1, [115]⟩ (by decide) (by decide)) [47, 97] before,
          ∃ k, Copied s k [47, 97] c := by
  obtain ⟨s, hr, hp⟩ := Reach.of_guarded_test clientsStep (tidyTest [4, 5] 8) (.init 10 1 [115])
    (writeThenOpen ++ nextCall 1 5 3) (fun s => lastRead s == some (1, [47, 97], [120]))
    (by decide +kernel)
  have htidy := (@tidy_of_test [4, 5] 8 ⟨10, 1, [115]⟩ False 10 1 [115] s hr).1
  obtain ⟨ret, hmem⟩ := told_of_lastRead (beq_iff_eq.mp hp)
  obtain ⟨newer, mid, before, m, r, hlog, -, -, hcopied, hread⟩ :=
    reads_are_copies (by decide) (by decide) ⟨by decide, by decide⟩ htidy 1 _ ret _ hmem
  rcases hread with ⟨rfl, hbuf⟩ | ⟨-, hbuf⟩
  · refine ⟨s, htidy, before, ⟨newer ++ .returned 1 r :: mid, ?_⟩, hmem, hbuf.symm, hcopied⟩
    rw [hlog, List.append_assoc, List.cons_append]
  · cases hbuf

end FileStorage.Service

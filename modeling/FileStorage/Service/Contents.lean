import FileStorage.Lib.Keyed
import FileStorage.Service.EndToEnd
import FileStorage.Service.Ownership

/-!
# Where the content of a file comes from

What READ FILE and READ N return for a file is what it has been brought since it was
created: the contents of all APPENDs that were not refused, one after the other in the
order in which they were served. The point at which the read is served lies between
its call and its return, and the cache is then what the history up to there makes of it
(`contents_are_brought`).

`served` recounts a history: which calls were served in it, and what they were
then due. It replays the history up to each of them.
-/

namespace FileStorage.Service

open FileStorage.Lib FileStorage.Worker FileStorage.Wire

/-! ## What a history tells -/

/-- The last call of the client. -/
def lastCall (k : Nat) : List Exchange → Option Call
  | [] => none
  | .called k' c :: log => if k' = k then some c else lastCall k log
  | _ :: log => lastCall k log

/-- The call of the client that waits, and what it gets when it is served. -/
def Atomic.serves {lim : Limits} (m : Atomic lim) (k : Nat) : Option (Call × Received) :=
  match m.pending k with
  | .asked c => some (c, received c (serve lim (m.fd k) c.op m.cache.entries).2)
  | _ => none

/-- The calls that were served in a history, newest first. -/
def served {lim : Limits} (m₀ : Atomic lim) : List Exchange → List (Call × Received)
  | [] => []
  | .taken k :: log =>
    ((replay atomicStep m₀ log).bind fun m => m.serves k).toList ++ served m₀ log
  | _ :: log => served m₀ log

/-- What a served call has brought the file. -/
def brings (p : Bytes) : Call × Received → Option Bytes
  | (.appendToFile pathname buf, .evicted ret _) =>
    if pathname = p ∧ ret = 0 then some buf else none
  | _ => none

/-- A served call that has created the file. -/
def creates (p : Bytes) : Call × Received → Bool
  | (.openFile pathname .create, .evicted ret _) => pathname == p && ret == 0
  | _ => false

/-- What served calls, newest first, have brought the file since one has created it,
oldest first. -/
def broughtBy (p : Bytes) : List (Call × Received) → List Bytes
  | [] => []
  | x :: older => if creates p x then [] else broughtBy p older ++ (brings p x).toList

/-- What the file was brought since it was created. -/
def brought {lim : Limits} (m₀ : Atomic lim) (p : Bytes) (log : List Exchange) : List Bytes :=
  broughtBy p (served m₀ log)

/-- A file of an answer, with its size and its content. -/
def fileOf : Option Bytes × Nat × Option Bytes → Option (Bytes × Nat × Bytes)
  | (some p, size, some buf) => some (p, size, buf)
  | _ => none

/-- The files that a call has returned. -/
def contents : Call → Received → List (Bytes × Nat × Bytes)
  | .readFile p, .content _ size (some buf) => [(p, size, buf)]
  | .readNFiles _, .files _ fs => fs.filterMap fileOf
  | _, _ => []

/-- Behind the history `log` the cache serves the last call of the client, which gets
`r`: its files have what they were brought, and so have those in `r`. -/
structure ServedAt {lim : Limits} (m₀ : Atomic lim) (log : List Exchange) (m : Atomic lim)
    (k : Nat) (c : Call) (r : Received) : Prop where
  asked : lastCall k log = some c
  cache : replay atomicStep m₀ log = some m
  serves : m.serves k = some (c, r)
  files : ∀ e ∈ m.cache.entries, e.content = (brought m₀ e.pathname log).flatten
  told : ∀ p size buf, (p, size, buf) ∈ contents c r →
    buf = (brought m₀ p log).flatten ∧ size = buf.length

/-- The call that the client made last was served behind it, and it got `r`. -/
def ServedIn {lim : Limits} (m₀ : Atomic lim) (log : List Exchange) (k : Nat) (r : Received) :
    Prop :=
  ∃ mid before m c, log = mid ++ .taken k :: before ∧ (∀ c', .called k c' ∉ mid) ∧
    ServedAt m₀ before m k c r

/-! ## The last call -/

section

variable {k k' : Nat} {mid log : List Exchange} {c : Call}

theorem lastCall_called_self : lastCall k (.called k c :: log) = some c := if_pos rfl

theorem lastCall_called_of_ne (h : k' ≠ k) : lastCall k (.called k' c :: log) = lastCall k log :=
  if_neg h

theorem lastCall_append (h : ∀ c, .called k c ∉ mid) :
    lastCall k (mid ++ log) = lastCall k log := by
  induction mid with
  | nil => rfl
  | cons ev mid ih =>
    have ih := ih fun c hmem => h c (List.mem_cons_of_mem _ hmem)
    cases ev with
    | called k' c =>
      have hk : k' ≠ k := by
        rintro rfl
        exact h c List.mem_cons_self
      rw [List.cons_append, lastCall_called_of_ne hk, ih]
    | _ => exact ih

theorem called_of_lastCall (h : lastCall k log = some c) : .called k c ∈ log := by
  induction log with
  | nil => cases h
  | cons ev log ih =>
    cases ev with
    | called k' c' =>
      by_cases hk : k' = k
      · subst hk
        rw [lastCall_called_self] at h
        cases h
        exact List.mem_cons_self
      · rw [lastCall_called_of_ne hk] at h
        exact List.mem_cons_of_mem _ (ih h)
    | _ => exact List.mem_cons_of_mem _ (ih h)

/-- A client waits for what it has called last. -/
theorem lastCall_of_calling {ram nfile : Int} {sockname : Bytes} {L : Nat} {s : Net}
    (h : Reach netStep (orderly L) (.init ram nfile sockname) s) :
    ∀ k c, (s.client k).calling = some c → lastCall k s.log = some c := by
  refine h.invariant (fun s => ∀ k c, (s.client k).calling = some c → lastCall k s.log = some c)
    (fun k c hc => ?_) fun s l t ih _ hs k c hc => ?_
  · cases hc
  · rcases netStep_cases hs with ⟨fd, -, -, rfl⟩ | ⟨k', c', -, -, -, rfl⟩ |
        ⟨fd, sched, op, rest, -, -, -, -, rfl⟩ | ⟨fd, j, e, -, -, -, rfl⟩ |
        ⟨k', sched, c', r, rest, -, -, -, -, rfl⟩
    · exact ih k c hc
    · show lastCall k (.called k' c' :: s.log) = some c
      have hc : (Function.update s.client k' _ k).calling = some c := hc
      by_cases hk : k = k'
      · subst hk
        rw [Function.update_self] at hc
        rw [lastCall_called_self]
        exact hc
      · rw [Function.update_of_ne hk] at hc
        rw [lastCall_called_of_ne (Ne.symm hk)]
        exact ih k c hc
    · rw [Net.calling_taken] at hc
      exact ih k c hc
    · rw [Net.calling_worked] at hc
      exact ih k c hc
    · have hc : (Function.update s.client k' _ k).calling = some c := hc
      by_cases hk : k = k'
      · rw [hk, Function.update_self] at hc
        cases hc
      · rw [Function.update_of_ne hk] at hc
        exact ih k c hc

end

/-! ## What a call does to the contents -/

section

variable {lim : Limits} {l : List Entry} {ks : List Bytes} {g : Entry → Entry} {fd : Nat}
variable {p flag content buf : Bytes} {e : Entry} {c : Call} {size : Nat}

/-- A file with the name and the content of `e`. -/
def Same (e e' : Entry) : Prop := e'.pathname = e.pathname ∧ e.content = e'.content

theorem same_edit (hpath : ∀ e, (g e).pathname = e.pathname) (hg : ∀ e, (g e).content = e.content)
    (h : e ∈ edit Entry.pathname ks g l) : ∃ e' ∈ l, Same e e' := by
  obtain ⟨e', he', rfl⟩ := List.mem_map.mp h
  refine ⟨e', he', ?_⟩
  split
  · exact ⟨(hpath e').symm, hg e'⟩
  · exact ⟨rfl, rfl⟩

/-- A new file is empty, and the only one of its name. -/
theorem same_createFile (hnone : lookup Entry.pathname p l = none)
    (h : e ∈ (createFile lim fd p l).1) :
    e.pathname = p ∧ (createFile lim fd p l).2 ≠ .ko ∧ e.content = [] ∨
      (e.pathname ≠ p ∨ (createFile lim fd p l).2 = .ko) ∧ e ∈ l := by
  have hother : e ∈ l → e.pathname ≠ p := lookup_eq_none.mp hnone e
  unfold createFile at h ⊢
  split at h
  · next hroom =>
    rw [if_pos hroom]
    rcases List.mem_cons.mp h with rfl | h
    · exact .inl ⟨rfl, nofun, rfl⟩
    · exact .inr ⟨.inl (hother h), h⟩
  · next hroom =>
    rw [if_neg hroom]
    cases hv : (removables l).head? with
    | none =>
      rw [hv] at h
      exact .inr ⟨.inr rfl, h⟩
    | some v =>
      rw [hv] at h
      rcases List.mem_cons.mp h with rfl | h
      · exact .inl ⟨rfl, nofun, rfl⟩
      · have hl : e ∈ l := (without_sublist _ l).subset h
        exact .inr ⟨.inl (hother hl), hl⟩

/-- Only O_CREATE makes a file, and only one that is not there. -/
theorem same_openFile (flags : OpenFlag) (h : e ∈ (openFile lim fd p flags.text l).1) :
    flags = .create ∧ e.pathname = p ∧ (openFile lim fd p flags.text l).2 ≠ .ko ∧ e.content = [] ∨
      (flags ≠ .create ∨ e.pathname ≠ p ∨ (openFile lim fd p flags.text l).2 = .ko) ∧
        ∃ e' ∈ l, Same e e' := by
  unfold openFile at h ⊢
  cases hlook : lookup Entry.pathname p l with
  | some f =>
    rw [hlook] at h
    dsimp only at h ⊢
    split at h
    · next hopen =>
      have hflag : flags ≠ .create := by
        rintro rfl
        exact absurd hopen.1 (by decide)
      exact .inr ⟨.inl hflag, same_edit (g := Entry.openBy fd) (fun _ => rfl) (fun _ => rfl) h⟩
    · next hopen =>
      rw [if_neg hopen]
      exact .inr ⟨.inr (.inr rfl), e, h, rfl, rfl⟩
  | none =>
    rw [hlook] at h
    cases flags with
    | create =>
      rcases same_createFile hlook h with ⟨hp, hko, hnil⟩ | ⟨hor, hl⟩
      · exact .inl ⟨rfl, hp, hko, hnil⟩
      · exact .inr ⟨.inr hor, e, hl, rfl, rfl⟩
    | «open» => exact .inr ⟨.inl nofun, e, h, rfl, rfl⟩

theorem same_closeFile (h : e ∈ (closeFile fd p l).1) : ∃ e' ∈ l, Same e e' := by
  unfold closeFile at h
  split at h
  · split at h
    · exact same_edit (g := Entry.close) (fun _ => rfl) (fun _ => rfl) h
    · exact ⟨e, h, rfl, rfl⟩
  · exact ⟨e, h, rfl, rfl⟩

/-- An APPEND that is not refused adds its bytes to its file. -/
theorem content_appendToFile (h : e ∈ (appendToFile lim fd p content l).1) :
    ∃ e' ∈ l, e'.pathname = e.pathname ∧
      ((p = e.pathname ∧ (appendToFile lim fd p content l).2 ≠ .ko ∧
          e.content = e'.content ++ content) ∨
        ((p ≠ e.pathname ∨ (appendToFile lim fd p content l).2 = .ko) ∧
          e.content = e'.content)) := by
  unfold appendToFile at h ⊢
  split at h
  · exact ⟨e, h, rfl, .inr ⟨.inr rfl, rfl⟩⟩
  · next f hfind =>
    have hpath := (lookup_some hfind).2
    split at h
    · next hown =>
      rw [if_pos hown]
      unfold extendFile at h ⊢
      dsimp only at h ⊢
      split at h
      · next hlarge =>
        -- the file itself is deleted
        rw [if_pos hlarge]
        exact ⟨e, (without_sublist _ l).subset h, rfl, .inr ⟨.inr rfl, rfl⟩⟩
      · next hlarge =>
        rw [if_neg hlarge]
        split at h
        · next hroom =>
          rw [if_pos hroom]
          obtain ⟨e', he', rfl⟩ := List.mem_map.mp h
          refine ⟨e', (without_sublist _ l).subset he', ?_⟩
          -- only the file of that name grows
          split
          · next hmem =>
            have hp := List.mem_singleton.mp (List.contains_iff_mem.mp hmem)
            exact ⟨rfl, .inl ⟨hpath.symm.trans hp.symm, nofun, rfl⟩⟩
          · next hmem =>
            refine ⟨rfl, .inr ⟨.inl fun hp => hmem ?_, rfl⟩⟩
            rw [List.contains_iff_mem, List.mem_singleton, hpath, hp]
        · next hroom =>
          rw [if_neg hroom]
          exact ⟨e, h, rfl, .inr ⟨.inr rfl, rfl⟩⟩
    · next hown =>
      rw [if_neg hown]
      exact ⟨e, h, rfl, .inr ⟨.inr rfl, rfl⟩⟩

/-- A served call leaves a file with what it had, and what the call has brought it. -/
def Continues (l : List Entry) (e : Entry) (x : Call × Received) : Prop :=
  creates e.pathname x = true ∧ e.content = [] ∨
    creates e.pathname x = false ∧ ∃ e' ∈ l, e'.pathname = e.pathname ∧
      e.content = e'.content ++ (brings e.pathname x).getD []

theorem Same.continues {e' : Entry} (h : Same e e') (hl : e' ∈ l) {x : Call × Received}
    (hc : creates e.pathname x = false) (hb : brings e.pathname x = none) : Continues l e x := by
  refine .inr ⟨hc, e', hl, h.1, ?_⟩
  rw [hb]
  exact h.2.trans (List.append_nil _).symm

/-- **A file has what it had before and what the call has brought it**, or it is new. -/
theorem continues_serve (h : e ∈ (serve lim fd c.op l).1) :
    Continues l e (c, received c (serve lim fd c.op l).2) := by
  cases c with
  | openFile p flags =>
    have hcreates : creates e.pathname (.openFile p flags,
        received (.openFile p flags) [.answer (openFile lim fd p flags.text l).2]) = true ↔
        flags = .create ∧ e.pathname = p ∧ (openFile lim fd p flags.text l).2 ≠ .ko := by
      cases flags with
      | create =>
        show (p == e.pathname && answerValue _ == 0) = true ↔ _
        rw [Bool.and_eq_true, beq_iff_eq, beq_iff_eq, eq_comm (a := p)]
        rcases answerValue_cases (openFile lim fd p OpenFlag.create.text l).2 with
          ⟨hko, hval⟩ | ⟨hko, hval⟩
        · exact ⟨fun hx => absurd (hval.symm.trans hx.2) (by decide), fun hx => absurd hko hx.2.2⟩
        · exact ⟨fun hx => ⟨rfl, hx.1, hko⟩, fun hx => ⟨hx.2.1, hval⟩⟩
      | «open» => exact ⟨fun hx => absurd hx Bool.false_ne_true, fun hx => by cases hx.1⟩
    rcases same_openFile flags h with ⟨hflag, hp, hko, hnil⟩ | ⟨hor, e', he', hsame⟩
    · exact .inl ⟨hcreates.mpr ⟨hflag, hp, hko⟩, hnil⟩
    · refine hsame.continues he' ?_ rfl
      refine Bool.eq_false_iff.mpr fun hc => ?_
      obtain ⟨hflag, hp, hko⟩ := hcreates.mp hc
      rcases hor with hne | hne | hne
      · exact hne hflag
      · exact hne hp
      · exact hko hne
  | readFile p => exact Same.continues ⟨rfl, rfl⟩ h rfl rfl
  | readNFiles n =>
    obtain ⟨e', he', hsame⟩ := same_edit (g := Entry.close) (fun _ => rfl) (fun _ => rfl) h
    exact hsame.continues he' rfl rfl
  | appendToFile p content =>
    obtain ⟨e', he', hp, hcase⟩ := content_appendToFile h
    refine .inr ⟨rfl, e', he', hp, ?_⟩
    show e.content = e'.content ++ (if p = e.pathname ∧
      answerValue (appendToFile lim fd p content l).2 = 0 then some content else none).getD []
    rcases hcase with ⟨hpath, hne, hc⟩ | ⟨hnot, hc⟩
    · rw [if_pos ⟨hpath, if_neg hne⟩]
      exact hc
    · rw [if_neg]
      · exact hc.trans (List.append_nil _).symm
      · rintro ⟨hpath, hval⟩
        rw [hnot.resolve_left fun hp => hp hpath] at hval
        cases hval
  | closeFile p =>
    obtain ⟨e', he', hsame⟩ := same_closeFile h
    exact hsame.continues he' rfl rfl
  | closeConnection sockname => exact Same.continues ⟨rfl, rfl⟩ h rfl rfl

/-- **What a call returns is what the files have** where it is served. -/
theorem contents_serve (h : (p, size, buf) ∈ contents c (received c (serve lim fd c.op l).2)) :
    ∃ e ∈ l, e.pathname = p ∧ e.content = buf ∧ size = buf.length := by
  cases c with
  | readFile pathname =>
    have h : (p, size, buf) ∈ contents (.readFile pathname)
      (received (.readFile pathname) [readFile fd pathname l]) := h
    unfold readFile at h
    split at h
    · next e hfind =>
      obtain ⟨he, hp⟩ := lookup_some hfind
      split at h
      · cases List.mem_singleton.mp h
        exact ⟨e, he, hp, rfl, Int.toNat_natCast _⟩
      · cases h
    · cases h
  | readNFiles n =>
    obtain ⟨f, hf, hfile⟩ := List.mem_filterMap.mp h
    obtain ⟨o, ho, hreceived⟩ := List.mem_filterMap.mp hf
    rcases List.mem_append.mp ho with ho | ho
    · obtain ⟨e, he, rfl⟩ := List.mem_map.mp ho
      cases hreceived
      cases hfile
      exact ⟨e, List.mem_of_mem_filter (List.mem_of_mem_take he), rfl, rfl, Int.toNat_natCast _⟩
    · cases List.mem_singleton.mp ho
      cases hreceived
  | _ => cases h

end

/-! ## The account of a history -/

section

variable {lim : Limits} {m₀ m m' : Atomic lim} {log : List Exchange} {k : Nat} {p : Bytes}
variable {c : Call} {r : Received} {ev : Exchange}

/-- The cache and the calls, as the history tells them. -/
structure Accounts (m₀ : Atomic lim) (log : List Exchange) (m : Atomic lim) : Prop where
  files : ∀ e ∈ m.cache.entries, e.content = (brought m₀ e.pathname log).flatten
  asked : ∀ k c, m.pending k = .asked c → lastCall k log = some c
  due : ∀ k r, m.pending k = .due r → ServedIn m₀ log k r

/-- An event that is no call of the client. -/
theorem ServedIn.cons (h : ServedIn m₀ log k r) (hev : ∀ c, .called k c ≠ ev) :
    ServedIn m₀ (ev :: log) k r := by
  obtain ⟨mid, before, m, c, rfl, hmid, hserved⟩ := h
  refine ⟨ev :: mid, before, m, c, rfl, fun c' hmem => ?_, hserved⟩
  rcases List.mem_cons.mp hmem with he | hmem
  · exact hev c' he
  · exact hmid c' hmem

/-- The call that was served is the last one of the client. -/
theorem ServedIn.of_lastCall (h : ServedIn m₀ log k r) (hc : lastCall k log = some c) :
    ∃ mid before m, log = mid ++ .taken k :: before ∧ (∀ c', .called k c' ∉ mid) ∧
      ServedAt m₀ before m k c r := by
  obtain ⟨mid, before, m, c', rfl, hmid, hserved⟩ := h
  rw [lastCall_append hmid] at hc
  obtain rfl := Option.some.inj (hserved.asked.symm.trans hc)
  exact ⟨mid, before, m, rfl, hmid, hserved⟩

/-- A served call comes on top of what was served before it. -/
theorem brought_taken (hlog : replay atomicStep m₀ log = some m) {x : Call × Received}
    (hx : m.serves k = some x) :
    brought m₀ p (.taken k :: log) =
      if creates p x then [] else brought m₀ p log ++ (brings p x).toList := by
  have hserved : served m₀ (.taken k :: log) = x :: served m₀ log := by
    show ((replay atomicStep m₀ log).bind _).toList ++ _ = _
    rw [hlog, Option.bind_some, hx]
    rfl
  unfold brought
  rw [hserved, broughtBy]

/-- The files keep what the history tells of them. -/
theorem Accounts.continues (h : Accounts m₀ log m) (hlog : replay atomicStep m₀ log = some m)
    {x : Call × Received} (hx : m.serves k = some x) {e : Entry}
    (he : Continues m.cache.entries e x) :
    e.content = (brought m₀ e.pathname (.taken k :: log)).flatten := by
  rw [brought_taken hlog hx]
  rcases he with ⟨hnew, hnil⟩ | ⟨hold, e', he', hp, hc⟩
  · rw [if_pos hnew, hnil]
    rfl
  · rw [if_neg (by rw [hold]; exact Bool.false_ne_true), hc, h.files e' he', hp,
      List.flatten_append]
    cases brings e.pathname x with
    | none => rfl
    | some buf => exact congrArg _ (List.append_nil buf).symm

theorem accounts_taken (h : Accounts m₀ log m) (hlog : replay atomicStep m₀ log = some m)
    (hasked : m.pending k = .asked c) : Accounts m₀ (.taken k :: log) (m.taken k c) := by
  have hx : m.serves k = some (c, received c (serve lim (m.fd k) c.op m.cache.entries).2) := by
    unfold Atomic.serves
    rw [hasked]
  refine ⟨fun e he => h.continues hlog hx (continues_serve he), fun k' c' hc' => ?_, fun k' r hr => ?_⟩
  · obtain ⟨-, hnot⟩ | ⟨-, hc'⟩ := update_cases hc'
    · cases hnot
    · exact h.asked k' c' hc'
  · obtain ⟨rfl, hdue⟩ | ⟨-, hr⟩ := update_cases hr
    · -- the call is served now, with the files as they are
      cases hdue
      refine ⟨[], log, m, c, rfl, fun c' hmem => (List.not_mem_nil hmem).elim,
        h.asked k' c hasked, hlog, hx, h.files, fun p size buf hmem => ?_⟩
      obtain ⟨e, he, rfl, rfl, hsize⟩ := contents_serve hmem
      exact ⟨h.files e he, hsize⟩
    · exact (h.due k' r hr).cons nofun

theorem accounts_step (h : Accounts m₀ log m) (hlog : replay atomicStep m₀ log = some m)
    (hs : atomicStep m ev = some m') : Accounts m₀ (ev :: log) m' := by
  cases ev with
  | connected k fd =>
    cases hs
    exact ⟨h.files, h.asked, fun k' r hr => (h.due k' r hr).cons fun _ he => by cases he⟩
  | called k c =>
    obtain ⟨-, hs⟩ := Option.ite_none_right_eq_some.mp hs
    cases hs
    refine ⟨h.files, fun k' c' hc' => ?_, fun k' r hr => ?_⟩
    · obtain ⟨rfl, hasked⟩ | ⟨hk, hc'⟩ := update_cases hc'
      · cases hasked
        exact lastCall_called_self
      · -- another client calls
        rw [lastCall_called_of_ne (Ne.symm hk)]
        exact h.asked k' c' hc'
    · obtain ⟨-, hnot⟩ | ⟨hk, hr⟩ := update_cases hr
      · cases hnot
      · refine (h.due k' r hr).cons fun c' he => hk ?_
        cases he
        rfl
  | taken k =>
    cases hp : m.pending k with
    | asked c =>
      have htaken : atomicStep m (.taken k) = some (m.taken k c) := by simp only [atomicStep, hp]
      obtain rfl := Option.some.inj (htaken.symm.trans hs)
      exact accounts_taken h hlog hp
    | nothing | due r =>
      simp only [atomicStep, hp] at hs
      cases hs
  | returned k r =>
    obtain ⟨-, hs⟩ := Option.ite_none_right_eq_some.mp hs
    cases hs
    refine ⟨h.files, fun k' c' hc' => ?_, fun k' r' hr => ?_⟩
    · obtain ⟨-, hnot⟩ | ⟨-, hc'⟩ := update_cases hc'
      · cases hnot
      · exact h.asked k' c' hc'
    · obtain ⟨-, hnot⟩ | ⟨-, hr⟩ := update_cases hr
      · cases hnot
      · exact (h.due k' r' hr).cons fun _ he => by cases he

end

theorem accounts_of_replay {lim : Limits} (hram : 0 ≤ lim.ram) (hslots : 0 ≤ lim.slots)
    {log : List Exchange} {m : Atomic lim}
    (h : replay atomicStep (.empty lim hram hslots) log = some m) :
    Accounts (.empty lim hram hslots) log m := by
  induction log generalizing m with
  | nil =>
    cases h
    exact ⟨fun e he => (List.not_mem_nil he).elim, nofun, nofun⟩
  | cons ev log ih =>
    obtain ⟨m', hlog, hs⟩ := Option.bind_eq_some_iff.mp h
    exact accounts_step (ih hlog) hlog hs

/-- Whatever was served was called. -/
theorem called_of_served {lim : Limits} (hram : 0 ≤ lim.ram) (hslots : 0 ≤ lim.slots)
    {log : List Exchange} {m : Atomic lim} {c : Call} {r : Received}
    (h : replay atomicStep (.empty lim hram hslots) log = some m)
    (hmem : (c, r) ∈ served (.empty lim hram hslots) log) : ∃ k, .called k c ∈ log := by
  induction log generalizing m with
  | nil => exact (List.not_mem_nil hmem).elim
  | cons ev log ih =>
    obtain ⟨m', hlog, -⟩ := Option.bind_eq_some_iff.mp h
    have hold : (c, r) ∈ served (.empty lim hram hslots) log → ∃ k, .called k c ∈ ev :: log :=
      fun hmem => (ih hlog hmem).imp fun _ => List.mem_cons_of_mem _
    cases ev with
    | taken k =>
      rcases List.mem_append.mp hmem with hmem | hmem
      · rw [hlog, Option.bind_some, Option.mem_toList] at hmem
        have hserves : m'.serves k = some (c, r) := hmem
        unfold Atomic.serves at hserves
        split at hserves
        · next c' hasked =>
          cases hserves
          have hlast := (accounts_of_replay hram hslots hlog).asked k c hasked
          exact ⟨k, List.mem_cons_of_mem _ (called_of_lastCall hlast)⟩
        · cases hserves
      · exact hold hmem
    | _ => exact hold hmem

theorem brings_of_broughtBy {p buf : Bytes} {l : List (Call × Received)}
    (h : buf ∈ broughtBy p l) : ∃ x ∈ l, brings p x = some buf := by
  induction l with
  | nil => cases h
  | cons x older ih =>
    unfold broughtBy at h
    split at h
    · cases h
    · rcases List.mem_append.mp h with h | h
      · obtain ⟨y, hy, hb⟩ := ih h
        exact ⟨y, List.mem_cons_of_mem _ hy, hb⟩
      · exact ⟨x, List.mem_cons_self, Option.mem_toList.mp h⟩

/-- Whatever a file was brought was appended. -/
theorem called_of_brought {lim : Limits} (hram : 0 ≤ lim.ram) (hslots : 0 ≤ lim.slots)
    {log : List Exchange} {m : Atomic lim} {p buf : Bytes}
    (h : replay atomicStep (.empty lim hram hslots) log = some m)
    (hmem : buf ∈ brought (.empty lim hram hslots) p log) :
    ∃ k, .called k (.appendToFile p buf) ∈ log := by
  obtain ⟨⟨c, r⟩, hserved, hbrings⟩ := brings_of_broughtBy hmem
  unfold brings at hbrings
  split at hbrings
  · next pathname buf' ret names heq =>
    cases heq
    obtain ⟨hp, hbuf⟩ := Option.ite_none_right_eq_some.mp hbrings
    cases hbuf
    obtain ⟨rfl, -⟩ := hp
    exact called_of_served hram hslots h hserved
  · cases hbrings

theorem servedIn_of_replay {lim : Limits} (hram : 0 ≤ lim.ram) (hslots : 0 ≤ lim.slots)
    {newer older : List Exchange} {k : Nat} {r : Received} {m : Atomic lim}
    (h : replay atomicStep (.empty lim hram hslots) (newer ++ .returned k r :: older) = some m) :
    ServedIn (.empty lim hram hslots) older k r := by
  rw [replay_append] at h
  obtain ⟨m₂, hm₂, -⟩ := Option.bind_eq_some_iff.mp h
  obtain ⟨m₁, hm₁, hs⟩ := Option.bind_eq_some_iff.mp hm₂
  obtain ⟨hdue, -⟩ := Option.ite_none_right_eq_some.mp hs
  exact (accounts_of_replay hram hslots hm₁).due k r hdue

/-- **What a call returns of a file is what the file was brought since it was created**, at
a point between the call and its return. -/
theorem contents_are_brought {ram nfile : Int} {sockname : Bytes} {L : Nat} {s : Net}
    (hram : 0 ≤ ram) (hnfile : 1 ≤ nfile) (hfit : Fits ⟨ram, nfile, sockname⟩ L)
    (h : Reach netStep (orderly L) (.init ram nfile sockname) s) (newer older : List Exchange)
    (k : Nat) (r : Received) (hlog : s.log = newer ++ .returned k r :: older) :
    ServedIn (.empty ⟨ram, nfile, sockname⟩ hram (Int.le_trans (Int.zero_le_ofNat 1) hnfile))
      older k r := by
  obtain ⟨m, hm, -⟩ := replay_of_reach hram hnfile hfit h
  rw [hlog] at hm
  exact servedIn_of_replay _ _ hm

/-- The second client reads what the first has brought the file with two APPENDs. -/
theorem contents_are_brought_two_clients :
    ∃ s older, Reach netStep (orderly 8) (.init 10 1 []) s ∧
      s.log = .returned 1 (.content 0 2 (some [120, 121])) :: older ∧
      ServedIn (.empty ⟨10, 1, []⟩ (by decide) (by decide)) older 1
        (.content 0 2 (some [120, 121])) := by
  obtain ⟨s, hr, hp⟩ := Reach.of_guarded_test netStep (orderlyTest [4, 5] 8) (.init 10 1 [])
    ([.connect 4, .connect 5] ++ roundTrip 0 4 4 (.openFile [47, 97] .create) ++
      roundTrip 0 4 9 (.appendToFile [47, 97] [120]) ++
      roundTrip 0 4 9 (.appendToFile [47, 97] [121]) ++ roundTrip 0 4 3 (.closeFile [47, 97]) ++
      roundTrip 1 5 3 (.openFile [47, 97] .open) ++ roundTrip 1 5 3 (.readFile [47, 97]))
    (fun s => lastReturn s == some (1, .content 0 2 (some [120, 121]))) (by decide +kernel)
  have hclean := orderly_of_test hr
  obtain ⟨older, hlog⟩ : ∃ older,
      s.log = .returned 1 (.content 0 2 (some [120, 121])) :: older := by
    have hp := beq_iff_eq.mp hp
    unfold lastReturn at hp
    split at hp
    · next k r older hlog =>
      cases hp
      exact ⟨older, hlog⟩
    · cases hp
  refine ⟨s, older, hclean, hlog, ?_⟩
  exact contents_are_brought (by decide) (by decide) ⟨by decide, by decide⟩ hclean [] older 1 _ hlog

end FileStorage.Service

import FileStorage.Dispatcher.Clients
import FileStorage.Lib.Chain
import FileStorage.Lib.Run
import FileStorage.RequestQueue.Model

/-!
# The linked requests are a queue

`Represents q l` says that the links of the queue spell the list `l` of
addresses, from `head`, the newest request, to `last`, the oldest. `push` puts
an address in front of it (`push_spec`) and `pop` takes the last one off
(`pop_spec`); neither touches the `info` of a request. A popped request keeps
its `father`, and nothing in the list refers to it any more.

`Refines` puts this together for the threads: the list of addresses, read from
the oldest, is the abstract queue of `FileStorage.Lib.Fifo`, and no two workers
have the same request in hand. So every run of the threads is a run of the
abstract queue (`queue_refines_fifo`), which is also the queue that the
dispatcher's model works with (`dispatcher_fifo`).
-/

namespace FileStorage.RequestQueue

open FileStorage.Lib

variable {ρ : Type} {N : Nat} {q q' : Queue ρ} {l : List Addr} {a b : Addr} {info : ρ}
variable {s t : State ρ N}

namespace Queue

/-- The links, read off the heap. -/
def son (queue : Queue ρ) (a : Addr) : Ptr := (queue.heap a).bind SmsRequest.son

/-- The link to the next newer request. -/
def father (queue : Queue ρ) (a : Addr) : Ptr := (queue.heap a).bind SmsRequest.father

/-- What the request at an address asks for. -/
def info? (queue : Queue ρ) (a : Addr) : Option ρ := (queue.heap a).map SmsRequest.info

/-- The requests at the addresses of a list. -/
def infos (queue : Queue ρ) (l : List Addr) : List ρ := l.filterMap queue.info?

end Queue

/-- The links spell the list. -/
structure Represents (q : Queue ρ) (l : List Addr) : Prop where
  linked : Linked q.son q.father q.head q.last l
  allocated : ∀ a ∈ l, (q.info? a).isSome = true
  count : q.countRq = l.length

/-- The new queue is empty. -/
theorem represents_createQueue (ρ : Type) : Represents (createQueue ρ) [] :=
  ⟨linked_nil, (by intro a ha; cases ha), rfl⟩

theorem Represents.head_iff (h : Represents q l) : q.head = none ↔ l = [] := by
  rw [h.linked.head_eq, List.head?_eq_none_iff]

theorem Represents.last_iff (h : Represents q l) : q.last = none ↔ l = [] := by
  rw [h.linked.last_eq, List.getLast?_eq_none_iff]

/-- What has an `info` is allocated. -/
theorem heap_of_info (h : (q.info? a).isSome = true) : ∃ rq, q.heap a = some rq := by
  unfold Queue.info? at h
  rw [Option.isSome_map] at h
  exact Option.isSome_iff_exists.mp h

theorem Represents.heap (h : Represents q l) (ha : a ∈ l) : ∃ rq, q.heap a = some rq :=
  heap_of_info (h.allocated a ha)

/-- A chain of live requests is not touched by what happens elsewhere. -/
theorem Represents.frame (h : Represents q l) (hhead : q'.head = q.head) (hlast : q'.last = q.last)
    (hcount : q'.countRq = q.countRq) (hheap : ∀ a ∈ l, q'.heap a = q.heap a) :
    Represents q' l := by
  refine ⟨?_, fun a ha => ?_, hcount.trans h.count⟩
  · rw [hhead, hlast]
    refine h.linked.congr (fun a ha => ?_) (fun a ha => ?_)
    · unfold Queue.son
      rw [hheap a ha]
    · unfold Queue.father
      rw [hheap a ha]
  · unfold Queue.info?
    rw [hheap a ha]
    exact h.allocated a ha

/-! ## A changed heap -/

theorem son_update (q : Queue ρ) (a : Addr) (x : Option (SmsRequest ρ)) :
    (fun b => (Function.update q.heap a x b).bind SmsRequest.son)
      = Function.update q.son a (x.bind SmsRequest.son) :=
  Function.comp_update (Option.bind · SmsRequest.son) q.heap a x

theorem father_update (q : Queue ρ) (a : Addr) (x : Option (SmsRequest ρ)) :
    (fun b => (Function.update q.heap a x b).bind SmsRequest.father)
      = Function.update q.father a (x.bind SmsRequest.father) :=
  Function.comp_update (Option.bind · SmsRequest.father) q.heap a x

theorem info_update (q : Queue ρ) (a : Addr) (x : Option (SmsRequest ρ)) :
    (fun b => (Function.update q.heap a x b).map SmsRequest.info)
      = Function.update q.info? a (x.map SmsRequest.info) :=
  Function.comp_update (Option.map SmsRequest.info ·) q.heap a x

/-- A write through a pointer to a live request is defined. -/
theorem write_eq {rq : SmsRequest ρ} (ha : q.heap a = some rq) (f : SmsRequest ρ → SmsRequest ρ) :
    q.write (some a) f = some { q with heap := Function.update q.heap a (some (f rq)) } := by
  unfold Queue.write
  simp only [Option.bind_eq_bind, Option.bind_some, ha]

/-- What a write that keeps `info` changes. -/
structure Written (q q' : Queue ρ) (a : Addr) (rq : SmsRequest ρ) : Prop where
  son : q'.son = Function.update q.son a rq.son
  father : q'.father = Function.update q.father a rq.father
  info : q'.info? = q.info?

theorem written {rq rq' : SmsRequest ρ} (ha : q.heap a = some rq) (hinfo : rq'.info = rq.info)
    (hheap : q'.heap = Function.update q.heap a (some rq')) : Written q q' a rq' := by
  refine ⟨?_, ?_, ?_⟩
  · unfold Queue.son
    rw [hheap]
    exact son_update q a (some rq')
  · unfold Queue.father
    rw [hheap]
    exact father_update q a (some rq')
  · have hself : Function.update q.info? a ((some rq').map SmsRequest.info) = q.info? := by
      refine Function.update_eq_self_iff.mpr ?_
      unfold Queue.info?
      rw [ha, Option.map_some, Option.map_some, hinfo]
    rw [← hself, ← info_update]
    unfold Queue.info?
    rw [hheap]

/-- A new cell has no links, and the others keep theirs. -/
theorem son_malloc : (q.malloc a info).son = Function.update q.son a none :=
  son_update q a (some ⟨info, none, none⟩)

theorem father_malloc : (q.malloc a info).father = Function.update q.father a none :=
  father_update q a (some ⟨info, none, none⟩)

/-- It has its request. -/
theorem info_malloc : (q.malloc a info).info? = Function.update q.info? a (some info) :=
  info_update q a (some ⟨info, none, none⟩)

theorem heap_malloc : (q.malloc a info).heap a = some ⟨info, none, none⟩ :=
  Function.update_self a _ q.heap

/-! ## The two functions -/

/-- A push to the empty queue. -/
theorem push_empty (h : Represents q []) :
    ∃ q', push (q.malloc a info) a = some q' ∧ Represents q' [a] ∧
      q'.info? = Function.update q.info? a (some info) := by
  have hhead : q.head = none := h.head_iff.mpr rfl
  have hlast : q.last = none := h.last_iff.mpr rfl
  refine ⟨_, if_pos ⟨hhead, hlast⟩, ⟨?_, ?_, ?_⟩, info_malloc⟩
  · refine ⟨List.nodup_singleton a, rfl, rfl, ?_, ?_, trivial⟩
    · show (q.malloc a info).father a = none
      rw [father_malloc, Function.update_self]
    · show (q.malloc a info).son a = none
      rw [son_malloc, Function.update_self]
  · intro b hb
    obtain rfl := List.mem_singleton.mp hb
    show ((q.malloc b info).info? b).isSome = true
    rw [info_malloc, Function.update_self]
    rfl
  · show q.countRq + 1 = ((0 + 1 : Nat) : Int)
    rw [h.count]
    rfl

/-- What `push` writes when there is a head: the new request points to the old
head, and the old head back to it. -/
structure Pushed (q : Queue ρ) (a : Addr) (info : ρ) (c : Addr) (q' : Queue ρ) : Prop where
  head : q'.head = some a
  last : q'.last = q.last
  countRq : q'.countRq = q.countRq + 1
  son : q'.son = Function.update q.son a (some c)
  father : q'.father = Function.update (Function.update q.father a none) c (some a)
  info : q'.info? = Function.update q.info? a (some info)

/-- A push to a queue that has a newest request writes the two links between them. -/
theorem push_writes {c : Addr} {rq : SmsRequest ρ} (hhead : q.head = some c) (hc : c ≠ a)
    (hrq : q.heap c = some rq) (info : ρ) :
    ∃ q', push (q.malloc a info) a = some q' ∧ Pushed q a info c q' := by
  let q₁ : Queue ρ := { q.malloc a info with head := some a }
  let q₂ : Queue ρ :=
    { q₁ with heap := Function.update q₁.heap a (some ⟨info, some c, none⟩) }
  let q₃ : Queue ρ :=
    { q₂ with heap := Function.update q₂.heap c (some { rq with father := some a }) }
  have h₁ : q₁.heap a = some ⟨info, none, none⟩ := heap_malloc
  have h₂ : q₂.heap c = some rq := by
    show Function.update q₁.heap a _ c = some rq
    rw [Function.update_of_ne hc]
    show Function.update q.heap a _ c = some rq
    rw [Function.update_of_ne hc, hrq]
  have w₁ : Written q₁ q₂ a ⟨info, some c, none⟩ := written h₁ rfl rfl
  have w₂ : Written q₂ q₃ c { rq with father := some a } := written h₂ rfl rfl
  have hpush : push (q.malloc a info) a = some { q₃ with countRq := q.countRq + 1 } := by
    unfold push
    rw [if_neg (by intro he; cases hhead.symm.trans he.1)]
    show ((q₁.write (some a) fun x => { x with son := q.head }).bind fun queue => _) = _
    rw [write_eq h₁, Option.bind_some, hhead]
    show ((q₂.write q.head fun x => { x with father := some a }).bind fun queue => _) = _
    rw [hhead, write_eq h₂, Option.bind_some]
    rfl
  have hson : q₃.son = Function.update q.son a (some c) := by
    have hsame : rq.son = Function.update q.son a (some c) c := by
      rw [Function.update_of_ne hc]
      unfold Queue.son
      rw [hrq, Option.bind_some]
    rw [w₂.son, w₁.son, show q₁.son = Function.update q.son a none from son_malloc,
      Function.update_idem]
    show Function.update (Function.update q.son a (some c)) c rq.son = _
    rw [hsame, Function.update_eq_self]
  have hfather : q₃.father = Function.update (Function.update q.father a none) c (some a) := by
    rw [w₂.father, w₁.father, show q₁.father = Function.update q.father a none from father_malloc,
      Function.update_idem]
  exact ⟨_, hpush, rfl, rfl, rfl, hson, hfather, w₂.info.trans (w₁.info.trans info_malloc)⟩

/-- The new request is the newest. -/
theorem Pushed.represents {c : Addr} (hp : Pushed q a info c q') (h : Represents q (c :: l))
    (ha : a ∉ c :: l) : Represents q' (a :: c :: l) := by
  have hhead : q.head = some c := h.linked.head_eq
  have hne : ∀ {b : Addr}, b ∈ c :: l → b ≠ a := fun hb he => ha (he ▸ hb)
  have hc : c ≠ a := hne (List.mem_cons_self ..)
  refine ⟨?_, fun b hb => ?_, ?_⟩
  · have hlinked : Linked q'.son q'.father (some a) (some (q.last.getD a)) (a :: c :: l) := by
      refine h.linked.push ha ?_ ?_ (fun b hb => ?_) (fun b hb => ?_)
      · rw [hp.son, Function.update_self, hhead]
      · rw [hp.father, Function.update_of_ne hc.symm, Function.update_self]
      · rw [hp.son, Function.update_of_ne (hne hb)]
      · rw [hp.father, hhead]
        by_cases hb' : b = c
        · rw [hb', Function.update_self, if_pos rfl]
        · rw [Function.update_of_ne hb', Function.update_of_ne (hne hb),
            if_neg (fun he => hb' (Option.some.inj he).symm)]
    -- the oldest request stays the last one
    have hlast : some (q.last.getD a) = q.last := by
      rw [h.linked.last_eq, List.getLast?_cons]
      rfl
    rw [hp.head, hp.last]
    rwa [hlast] at hlinked
  · rw [hp.info]
    rcases List.mem_cons.mp hb with rfl | hb
    · rw [Function.update_self]
      rfl
    · rw [Function.update_of_ne (hne hb)]
      exact h.allocated b hb
  · rw [hp.countRq, h.count]
    rfl

theorem Represents.not_mem (h : Represents q l) (ha : q.heap a = none) : a ∉ l := by
  intro hmem
  obtain ⟨rq, hrq⟩ := h.heap hmem
  rw [ha] at hrq
  cases hrq

/-- **`push`** puts a new request in front. -/
theorem push_spec (h : Represents q l) (ha : q.heap a = none) (info : ρ) :
    ∃ q', push (q.malloc a info) a = some q' ∧ Represents q' (a :: l) ∧
      q'.info? = Function.update q.info? a (some info) := by
  cases l with
  | nil => exact push_empty h
  | cons c l =>
    have hnot := h.not_mem ha
    have hc : c ≠ a := fun he => hnot (he ▸ List.mem_cons_self ..)
    obtain ⟨rq, hrq⟩ := h.heap (List.mem_cons_self ..)
    obtain ⟨q', hpush, hp⟩ := push_writes h.linked.head_eq hc hrq info
    exact ⟨q', hpush, hp.represents h hnot, hp.info⟩

/-- **`pop`** takes the oldest request off. -/
theorem pop_spec (h : Represents q (l ++ [a])) :
    ∃ q', pop q = some (a, q') ∧ Represents q' l ∧ q'.info? = q.info? := by
  have hlast : q.last = some a := by
    rw [h.linked.last_eq]
    simp
  obtain ⟨rq, hrq⟩ := h.heap (a := a) (by simp)
  have hfa : q.father a = l.getLast? := h.linked.father_eq
  have hrf : q.father a = rq.father := by
    unfold Queue.father
    rw [hrq, Option.bind_some]
  have hmem : ∀ b ∈ l, b ∈ l ++ [a] := fun b hb => List.mem_append_left _ hb
  cases hf : rq.father with
  | none =>
    -- it is the only one
    obtain rfl : l = [] := List.getLast?_eq_none_iff.mp (by rw [← hfa, hrf, hf])
    refine ⟨{ q with head := none, last := none, countRq := q.countRq - 1 }, ?_,
      ⟨linked_nil, (by intro b hb; cases hb), ?_⟩, rfl⟩
    · simp [pop, hlast, hrq, hf]
    · show q.countRq - 1 = 0
      rw [h.count]
      rfl
  | some b =>
    have hb : l.getLast? = some b := by rw [← hfa, hrf, hf]
    obtain ⟨rb, hrb⟩ := h.heap (hmem b (List.mem_of_getLast? hb))
    let q₁ : Queue ρ := { q with heap := Function.update q.heap b (some { rb with son := none }) }
    have w : Written q q₁ b { rb with son := none } := written hrb rfl rfl
    have hpop : pop q = some (a, { q₁ with last := some b, countRq := q.countRq - 1 }) := by
      unfold pop
      simp only [hlast, hrq, hf, Option.bind_eq_bind, Option.bind_some, write_eq hrb]
      rfl
    refine ⟨_, hpop, ⟨?_, fun c hc => ?_, ?_⟩, w.info⟩
    · have hlinked : Linked q₁.son q₁.father l.head? (q.father a) l := by
        refine h.linked.dropLast (fun c hc => ?_) (fun c hc => ?_)
        · rw [w.son, hrf, hf]
          by_cases hcb : c = b
          · rw [hcb, Function.update_self, if_pos rfl]
          · rw [Function.update_of_ne hcb, if_neg (fun he => hcb (Option.some.inj he).symm)]
        · rw [w.father]
          by_cases hcb : c = b
          · subst hcb
            rw [Function.update_self]
            unfold Queue.father
            rw [hrb, Option.bind_some]
          · rw [Function.update_of_ne hcb]
      have hhead : q.head = l.head? := by
        rw [h.linked.head_eq]
        cases l with
        | nil => cases hb
        | cons c l => rfl
      rw [hrf, hf, ← hhead] at hlinked
      exact hlinked
    · show (q₁.info? c).isSome = true
      rw [w.info]
      exact h.allocated c (hmem c hc)
    · show q.countRq - 1 = (l.length : Int)
      rw [h.count, List.length_append]
      simp

/-! ## The threads -/

theorem infos_congr (h : ∀ b ∈ l, q'.info? b = q.info? b) : q'.infos l = q.infos l :=
  List.filterMap_congr h

/-- The list of addresses, and the requests in hand, which are not in it. -/
structure Inv (s : State ρ N) (l : List Addr) : Prop where
  rep : Represents s.queue l
  held : ∀ w a, s.held w = some a → (s.queue.info? a).isSome = true ∧ a ∉ l
  once : ∀ v w a, s.held v = some a → s.held w = some a → v = w

/-- The abstract queue, read off the links from the oldest request. -/
def State.fifo (s : State ρ N) (l : List Addr) : Fifo ρ :=
  ⟨s.queue.infos l.reverse, s.pushed, s.popped⟩

def Refines (s : State ρ N) (f : Fifo ρ) : Prop := ∃ l, Inv s l ∧ f = s.fifo l

/-- What a step is for the abstract queue. -/
def Label.ops : Label ρ N → List (Fifo.Op ρ)
  | .push _ info => [.push info]
  | .pop _ => [.pop]
  | .free _ => []

/-- Nothing is queued at first. -/
theorem refines_init (ρ : Type) (N : Nat) : Refines (init ρ N) (Fifo.empty ρ) :=
  ⟨[], ⟨represents_createQueue ρ, (by intro w a ha; cases ha), (by intro v w a ha; cases ha)⟩, rfl⟩

theorem info_none (ha : q.heap a = none) : q.info? a = none := by
  unfold Queue.info?
  rw [ha, Option.map_none]

/-- A push is a push of the queue that is represented. -/
theorem refines_push (hi : Inv s l) (h : step s (.push a info) = some t) :
    ∃ g, (s.fifo l).step (.push info) = some g ∧ Refines t g := by
  simp only [step] at h
  split at h
  · cases h
  · next ha =>
    obtain ⟨queue, hpush, hrep, hinfo⟩ := push_spec hi.rep ha info
    rw [hpush, Option.bind_eq_bind, Option.bind_some, Option.some.injEq] at h
    subst h
    have hnone := info_none ha
    have old : ∀ {b : Addr}, (s.queue.info? b).isSome = true →
        b ≠ a ∧ queue.info? b = s.queue.info? b := by
      intro b hb
      have hne : b ≠ a := by
        intro he
        rw [he, hnone] at hb
        cases hb
      exact ⟨hne, by rw [hinfo, Function.update_of_ne hne]⟩
    refine ⟨_, rfl, a :: l, ⟨hrep, fun w b hb => ?_, hi.once⟩, ?_⟩
    · obtain ⟨hsome, hnot⟩ := hi.held w b hb
      obtain ⟨hne, hsame⟩ := old hsome
      refine ⟨by rw [hsame]; exact hsome, fun hmem => ?_⟩
      exact hnot ((List.mem_cons.mp hmem).resolve_left hne)
    · have hrest : queue.infos l.reverse = s.queue.infos l.reverse :=
        infos_congr fun b hb => (old (hi.rep.allocated b (List.mem_reverse.mp hb))).2
      have hnew : queue.infos [a] = [info] := by
        simp [Queue.infos, hinfo]
      have happend : queue.infos (a :: l).reverse = s.queue.infos l.reverse ++ [info] := by
        rw [List.reverse_cons, ← hrest, ← hnew]
        exact List.filterMap_append ..
      unfold State.fifo
      rw [happend]

/-- The oldest request is the first of the abstract queue. -/
theorem infos_oldest (h : q.info? a = some info) :
    q.infos (l ++ [a]).reverse = info :: q.infos l.reverse := by
  rw [List.reverse_append, List.reverse_singleton, List.singleton_append]
  unfold Queue.infos
  rw [List.filterMap_cons, h]

/-- A popped request goes from the list into the hands of a worker. -/
theorem inv_pop {w : Fin N} {popped : List ρ} (hi : Inv s (l ++ [a])) (hrep : Represents q l)
    (hinfo : q.info? = s.queue.info?) :
    Inv { s with queue := q, held := Function.update s.held w (some a), popped := popped } l := by
  have hmem : a ∈ l ++ [a] := List.mem_append_right _ (List.mem_singleton_self a)
  have hnot : a ∉ l := by
    intro ha
    exact (List.nodup_append.mp hi.rep.linked.nodup).2.2 a ha a (List.mem_singleton_self a) rfl
  -- who holds something now held it before, or holds what was in the list
  have cases_held : ∀ {v : Fin N} {b : Addr}, Function.update s.held w (some a) v = some b →
      (v = w ∧ a = b) ∨ (v ≠ w ∧ s.held v = some b) := by
    intro v b hb
    by_cases hv : v = w
    · subst hv
      rw [Function.update_self] at hb
      exact .inl ⟨rfl, Option.some.inj hb⟩
    · rw [Function.update_of_ne hv] at hb
      exact .inr ⟨hv, hb⟩
  refine ⟨hrep, fun v b hb => ?_, fun u v b hu hv => ?_⟩
  · show (q.info? b).isSome = true ∧ b ∉ l
    rw [hinfo]
    rcases cases_held hb with ⟨-, rfl⟩ | ⟨-, hb⟩
    · exact ⟨hi.rep.allocated a hmem, hnot⟩
    · obtain ⟨hsome, hout⟩ := hi.held v b hb
      exact ⟨hsome, fun hin => hout (List.mem_append_left _ hin)⟩
  · rcases cases_held hu with ⟨rfl, rfl⟩ | ⟨-, hu'⟩
    · rcases cases_held hv with ⟨rfl, -⟩ | ⟨-, hv'⟩
      · rfl
      · exact absurd hmem (hi.held v a hv').2
    · rcases cases_held hv with ⟨rfl, rfl⟩ | ⟨-, hv'⟩
      · exact absurd hmem (hi.held u a hu').2
      · exact hi.once u v b hu' hv'

/-- A pop takes the oldest of its elements. -/
theorem refines_pop {w : Fin N} (hi : Inv s l) (h : step s (.pop w) = some t) :
    ∃ g, (s.fifo l).step .pop = some g ∧ Refines t g := by
  simp only [step] at h
  split at h
  · next c hw hhead =>
    have hne : l ≠ [] := by
      intro he
      rw [hi.rep.head_iff.mpr he] at hhead
      cases hhead
    obtain ⟨l₀, a, rfl⟩ := (List.eq_nil_or_concat' l).resolve_left hne
    obtain ⟨queue, hpop, hrep, hinfo⟩ := pop_spec hi.rep
    -- the popped request is still allocated
    have hmem : a ∈ l₀ ++ [a] := List.mem_append_right _ (List.mem_singleton_self a)
    obtain ⟨rq, hrq⟩ : ∃ rq, queue.heap a = some rq :=
      heap_of_info (by rw [hinfo]; exact hi.rep.allocated a hmem)
    rw [hpop, Option.bind_eq_bind, Option.bind_some] at h
    simp only [hrq, Option.bind_eq_bind, Option.bind_some, Option.some.injEq] at h
    subst h
    have hfirst : s.queue.info? a = some rq.info := by
      rw [← hinfo]
      unfold Queue.info?
      rw [hrq, Option.map_some]
    refine ⟨⟨s.queue.infos l₀.reverse, s.pushed, s.popped ++ [rq.info]⟩, ?_, l₀,
      inv_pop hi hrep hinfo, ?_⟩
    · unfold State.fifo
      rw [infos_oldest hfirst]
      rfl
    · unfold State.fifo
      show _ = Fifo.mk (queue.infos l₀.reverse) s.pushed (s.popped ++ [rq.info])
      rw [infos_congr fun b _ => congrFun hinfo b]
  · cases h

/-- Freeing a request that is held changes nothing there. -/
theorem refines_free {w : Fin N} (hi : Inv s l) (h : step s (.free w) = some t) :
    Refines t (s.fifo l) := by
  simp only [step] at h
  split at h
  · cases h
  · next a hw =>
    cases h
    have hout := (hi.held w a hw).2
    have hheap : ∀ b, b ≠ a → (s.queue.free a).heap b = s.queue.heap b :=
      fun b hb => Function.update_of_ne hb _ _
    have hinfo : ∀ b, b ≠ a → (s.queue.free a).info? b = s.queue.info? b := by
      intro b hb
      unfold Queue.info?
      rw [hheap b hb]
    have hne : ∀ {b : Addr}, b ∈ l → b ≠ a := fun hb he => hout (he ▸ hb)
    have others : ∀ {v : Fin N} {b : Addr}, Function.update s.held w none v = some b →
        v ≠ w ∧ s.held v = some b := by
      intro v b hb
      by_cases hv : v = w
      · subst hv
        rw [Function.update_self] at hb
        cases hb
      · rw [Function.update_of_ne hv] at hb
        exact ⟨hv, hb⟩
    refine ⟨l, ⟨hi.rep.frame rfl rfl rfl fun b hb => hheap b (hne hb), ?_, ?_⟩, ?_⟩
    · intro v b hb
      obtain ⟨hv, hvb⟩ := others hb
      obtain ⟨hsome, hnot⟩ := hi.held v b hvb
      have hba : b ≠ a := by
        intro he
        exact hv (hi.once v w a (he ▸ hvb) hw)
      exact ⟨by rw [hinfo b hba]; exact hsome, hnot⟩
    · intro u v b hu hv
      exact hi.once u v b (others hu).2 (others hv).2
    · unfold State.fifo
      show _ = Fifo.mk ((s.queue.free a).infos l.reverse) s.pushed s.popped
      rw [infos_congr fun b hb => hinfo b (hne (List.mem_reverse.mp hb))]

/-- Each step is matched by the operations of its label. -/
theorem refines_step {f : Fifo ρ} {lab : Label ρ N} (h : Refines s f) (hs : step s lab = some t) :
    ∃ g, run Fifo.step f lab.ops = some g ∧ Refines t g := by
  obtain ⟨l, hi, rfl⟩ := h
  cases lab with
  | push a info =>
    obtain ⟨g, hg, hr⟩ := refines_push hi hs
    exact ⟨g, by simp only [Label.ops, run, hg], hr⟩
  | pop w =>
    obtain ⟨g, hg, hr⟩ := refines_pop hi hs
    exact ⟨g, by simp only [Label.ops, run, hg], hr⟩
  | free w => exact ⟨s.fifo l, rfl, refines_free hi hs⟩

/-- **The request queue is a FIFO queue.** After every run of pushes, pops and
frees the links spell a list, `head`, `last` and `count_rq` agree with it, the
same run of the abstract queue ends in the requests of that list, the popped
requests are a prefix of the pushed ones, and the next `push` and the next
guarded `pop` are defined, at the two ends of the list. -/
theorem queue_refines_fifo (ρ : Type) (N : Nat) (labels : List (Label ρ N)) (s : State ρ N)
    (h : run step (init ρ N) labels = some s) :
    ∃ l, Linked s.queue.son s.queue.father s.queue.head s.queue.last l ∧
      (∀ a ∈ l, (s.queue.heap a).isSome = true) ∧
      (s.queue.head = none ↔ l = []) ∧ (s.queue.last = none ↔ l = []) ∧
      s.queue.countRq = l.length ∧
      run Fifo.step (Fifo.empty ρ) (labels.flatMap Label.ops) = some (s.fifo l) ∧
      s.popped ++ s.queue.infos l.reverse = s.pushed ∧
      (∀ a info, s.queue.heap a = none →
        ∃ q, push (s.queue.malloc a info) a = some q ∧ Represents q (a :: l)) ∧
      (s.queue.head ≠ none →
        ∃ l' a q, l = l' ++ [a] ∧ pop s.queue = some (a, q) ∧ Represents q l') ∧
      ∀ w a, s.held w = some a →
        (s.queue.heap a).isSome = true ∧ a ∉ l ∧ ∀ v, s.held v = some a → v = w := by
  obtain ⟨f, hf, l, hi, rfl⟩ :=
    run_simulation Refines (refines_init ρ N) h fun _ _ _ _ => refines_step
  have heap : ∀ {a : Addr}, (s.queue.info? a).isSome = true → (s.queue.heap a).isSome = true :=
    fun ha => Option.isSome_iff_exists.mpr (heap_of_info ha)
  refine ⟨l, hi.rep.linked, fun a ha => heap (hi.rep.allocated a ha), hi.rep.head_iff,
    hi.rep.last_iff, hi.rep.count, hf, Fifo.order_run hf, ?_, ?_, ?_⟩
  · intro a info ha
    obtain ⟨q, hpush, hrep, -⟩ := push_spec hi.rep ha info
    exact ⟨q, hpush, hrep⟩
  · intro hhead
    have hne : l ≠ [] := fun he => hhead (hi.rep.head_iff.mpr he)
    obtain ⟨l', a, rfl⟩ := (List.eq_nil_or_concat' l).resolve_left hne
    obtain ⟨q, hpop, hrep, -⟩ := pop_spec hi.rep
    exact ⟨l', a, q, rfl, hpop, hrep⟩
  · intro w a ha
    obtain ⟨hsome, hout⟩ := hi.held w a ha
    exact ⟨heap hsome, hout, fun v hv => hi.once v w a hv ha⟩

/-- Two requests are pushed and popped by two workers; a third one gets the
address that the first was freed from. -/
def recycled (v w : Fin N) : List (Label Nat N) :=
  [.push 0 10, .push 1 20, .pop v, .free v, .push 0 30, .pop w]

theorem queue_refines_fifo_recycled :
    ∃ s : State Nat 2, run step (init Nat 2) (recycled 0 1) = some s ∧ s.popped = [10, 20] ∧
      s.held 1 = some 1 ∧ ∃ l, Linked s.queue.son s.queue.father s.queue.head s.queue.last l ∧
        s.queue.countRq = l.length ∧ s.popped ++ s.queue.infos l.reverse = s.pushed := by
  obtain ⟨s, hr, hp⟩ := (Option.any_eq_true
    (fun s : State Nat 2 => s.popped == [10, 20] && s.held 1 == some 1)
    (run step (init Nat 2) (recycled 0 1))).mp (by decide +kernel)
  simp only [Bool.and_eq_true, beq_iff_eq] at hp
  obtain ⟨l, hlinked, -, -, -, hcount, -, horder, -⟩ := queue_refines_fifo Nat 2 (recycled 0 1) s hr
  exact ⟨s, hr, hp.1, hp.2, l, hlinked, hcount, horder⟩

/-! ## The queue of the dispatcher -/

/-- What a step of the dispatcher from `x` to `y` is for the abstract queue: a visit pushes
what it puts behind the queued requests, a worker's `pop` pops, and nothing else does
anything. -/
def dispatcherOps (x y : Dispatcher.State N) : Dispatcher.Label N → List (Fifo.Op Dispatcher.Req)
  | .visit _ _ => (y.queue.drop x.queue.length).map .push
  | .pop _ => [.pop]
  | _ => []

theorem push_all (f : Fifo ρ) (rqs : List ρ) :
    run Fifo.step f (rqs.map .push) =
      some { f with queue := f.queue ++ rqs, pushed := f.pushed ++ rqs } := by
  induction rqs generalizing f with
  | nil => simp [run]
  | cons rq rqs ih =>
    rw [List.map_cons, run]
    simp only [Fifo.step]
    rw [ih]
    simp

/-- The list of requests in the dispatcher's model is the abstract queue. -/
theorem dispatcher_fifo {d : Dispatcher.Descriptors} {x y : Dispatcher.State N}
    {lab : Dispatcher.Label N} (h : Dispatcher.step d x lab = some y)
    {f : Fifo Dispatcher.Req} (hf : f.queue = x.queue) :
    ∃ g, run Fifo.step f (dispatcherOps x y lab) = some g ∧ g.queue = y.queue := by
  cases lab with
  | select ready =>
    simp only [Dispatcher.step] at h
    split at h
    · rcases Dispatcher.select_eq h with ⟨-, rfl⟩ | ⟨-, rfl⟩ | ⟨-, rfl⟩
      · exact ⟨f, rfl, hf⟩
      · exact ⟨f, rfl, hf⟩
      · exact ⟨f, rfl, hf⟩
    · cases h
  | visit accepted close =>
    refine ⟨_, push_all f _, ?_⟩
    show f.queue ++ y.queue.drop x.queue.length = y.queue
    rcases (Dispatcher.main_cases rfl h).queue_cases with hq | ⟨rq, hq⟩
    · rw [hq, List.drop_length, List.append_nil, hf]
    · rw [hq, List.drop_left, hf]
  | count =>
    simp only [Dispatcher.step] at h
    split at h
    · cases h
      exact ⟨f, rfl, hf⟩
    · cases h
      exact ⟨f, rfl, hf⟩
    · cases h
  | pop w =>
    obtain ⟨rq, queue, -, hq, rfl⟩ := Dispatcher.pop_cases h
    have hqueue : f.queue = rq :: queue := hf.trans hq
    refine ⟨{ f with queue := queue, popped := f.popped ++ [rq] }, ?_, rfl⟩
    simp only [dispatcherOps, run, Fifo.step, hqueue]
  | reinsert w =>
    obtain ⟨fd, -, rfl⟩ := Dispatcher.reinsert_cases h
    exact ⟨f, rfl, hf⟩
  | leave w =>
    rcases Dispatcher.leave_cases h with ⟨fd, -, rfl⟩ | ⟨fd, n, -, rfl⟩
    · exact ⟨f, rfl, hf⟩
    · exact ⟨f, rfl, hf⟩
  | close w =>
    obtain ⟨fd, -, rfl⟩ := Dispatcher.close_cases h
    exact ⟨f, rfl, hf⟩

end FileStorage.RequestQueue

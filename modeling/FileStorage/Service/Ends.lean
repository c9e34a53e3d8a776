import FileStorage.Service.Cache
import FileStorage.Worker.ReadN

/-!
# A request from its start to its end

`Ends rq pc sh sh' outs`: the worker that serves `rq`, alone from `pc` on, comes
to an end with the memory `sh'`, and sends `outs`. The rules follow the handler:
a step that sends nothing (`Ends.silent`), a loop that polls without success
(`Ends.poll`), a call of `insertCreateFile` or `UpdateFile` (`Ends.call`) and
the answers (`ends_reply`, `ends_appStats`).
-/

namespace FileStorage.Service

open FileStorage.Lib FileStorage.Storage FileStorage.Worker FileStorage.Worker.Sequential
open FileStorage.Worker.Alone FileStorage.Worker.ReadN

/-- What a step sends. -/
def shown (ev : Option Event) : List Output := (ev.bind output).toList

/-- The worker comes to an end, and sends `outs`. -/
inductive Ends (rq : Request) : Pc → Shared → Shared → List Output → Prop
  | last {pc : Pc} {sh sh' : Shared} {ev : Option Event}
      (hw : wstep rq pc sh = some ⟨none, sh', ev⟩) : Ends rq pc sh sh' (shown ev)
  | next {pc pc' : Pc} {sh sh₁ sh' : Shared} {ev : Option Event} {outs : List Output}
      (hw : wstep rq pc sh = some ⟨some pc', sh₁, ev⟩) (rest : Ends rq pc' sh₁ sh' outs) :
      Ends rq pc sh sh' (shown ev ++ outs)

section

variable {rq : Request} {pc pc' out : Pc} {sh sh₁ sh' : Shared} {ev : Option Event}
variable {outs : List Output}

theorem Ends.silent (hw : wstep rq pc sh = some ⟨some pc', sh₁, ev⟩) (hev : ev.bind output = none)
    (rest : Ends rq pc' sh₁ sh' outs) : Ends rq pc sh sh' outs := by
  have hnext := Ends.next hw rest
  unfold shown at hnext
  rw [hev] at hnext
  exact hnext

theorem Ends.goto (hw : wstep rq pc sh = Worker.goto pc' sh) (rest : Ends rq pc' sh sh' outs) :
    Ends rq pc sh sh' outs :=
  .silent hw rfl rest

theorem ends_reply (a : Answer) : Ends rq (.reply a) sh sh [.answer a] := by
  show Ends rq (.reply a) sh sh (shown (some (.answered rq a)))
  exact .last rfl

/-- APPEND samples the peaks before it answers. -/
theorem ends_appStats (a : Answer) : Ends rq (.appStats a) sh sh.sample [.answer a] :=
  .silent rfl rfl (ends_reply a)

/-- A loop that polls `bound` times and goes on. -/
theorem Ends.poll {poll : Nat → Pc} {bound : Nat}
    (hw : ∀ cnt, wstep rq (poll cnt) sh =
      Worker.goto (if cnt < bound then poll (cnt + 1) else out) sh)
    (rest : Ends rq out sh sh' outs) (cnt : Nat) : Ends rq (poll cnt) sh sh' outs := by
  obtain ⟨k, hk⟩ : ∃ k, bound - cnt = k := ⟨_, rfl⟩
  induction k generalizing cnt with
  | zero =>
    have hstep := hw cnt
    rw [if_neg (by omega)] at hstep
    exact .goto hstep rest
  | succ k ih =>
    have hstep := hw cnt
    rw [if_pos (by omega)] at hstep
    exact .goto hstep (ih (cnt + 1) (by omega))

/-! ## Calls of the storage functions -/

/-- The worker is inside `insertCreateFile` or `UpdateFile`. -/
def calling : Pc → Bool
  | .insert _ _ _ => true
  | .update _ _ _ _ _ => true
  | _ => false

/-- A storage function sends nothing, and goes on until it returns. -/
theorem calling_trans {A : Bytes → Prop} {st st' : Store} {q : Option Pc}
    (h : Trans rq A pc st q st' ev) (hpc : calling pc = true) (hq : q = some pc') :
    ev.bind output = none ∧ (calling pc' = true ∨ returns pc' = true) := by
  cases h with
  | insMove => cases hq; exact ⟨rfl, .inl rfl⟩
  | insEvict => cases hq; exact ⟨rfl, .inl rfl⟩
  | insFail => cases hq; exact ⟨rfl, .inr rfl⟩
  | insCommit => cases hq; exact ⟨rfl, .inr rfl⟩
  | updMove => cases hq; exact ⟨rfl, .inl rfl⟩
  | updEvict => cases hq; exact ⟨rfl, .inl rfl⟩
  | updDelete => cases hq; exact ⟨rfl, .inr rfl⟩
  | updFail => cases hq; exact ⟨rfl, .inr rfl⟩
  | updCommit => cases hq; exact ⟨rfl, .inr rfl⟩
  | _ => cases hpc

/-- A call that returns, and what the handler does after it. -/
theorem Ends.call (hpc : calling pc = true)
    (hcall : Leads (aloneStep rq) (pc, sh) (pc', sh₁)) (rest : Ends rq pc' sh₁ sh' outs) :
    Ends rq pc sh sh' outs := by
  obtain ⟨s, hs⟩ : ∃ s, s = (pc, sh) := ⟨_, rfl⟩
  rw [← hs] at hcall
  induction hcall using Relation.ReflTransGen.head_induction_on generalizing pc sh with
  | refl =>
    obtain ⟨rfl, rfl⟩ := Prod.mk.inj hs
    exact rest
  | @head a c hstep hrun ih =>
    subst hs
    obtain ⟨pc₂, sh₂⟩ := c
    obtain ⟨-, ev, hw⟩ := aloneStep_cases hstep
    obtain ⟨hev, hin⟩ := calling_trans (wstep_trans hw) hpc rfl
    rcases hin with hin | hin
    · exact .silent hw hev (ih hin rfl)
    · -- the call has returned here
      obtain ⟨rfl, rfl⟩ := Prod.mk.inj (Leads.eq_of_none hrun (aloneStep_returned hin))
      exact .silent hw hev rest

/-- A run that was followed with its events. -/
theorem Ends.of_leads {s : Serving} {log : List Event} (hpc : s.pc = some pc)
    (h : Leads (serveStep rq) s ⟨none, sh', log⟩) :
    ∃ evs, log = s.log ++ evs ∧ Ends rq pc s.shared sh' (evs.filterMap output) := by
  induction h using Relation.ReflTransGen.head_induction_on generalizing pc with
  | refl => cases hpc
  | @head a c hstep hrun ih =>
    unfold serveStep at hstep
    rw [hpc] at hstep
    obtain ⟨e, hw, rfl⟩ := Option.map_eq_some_iff.mp hstep
    have hshown : ∀ evs : List Event,
        (e.event.toList ++ evs).filterMap output = shown e.event ++ evs.filterMap output := by
      intro evs
      rw [List.filterMap_append]
      unfold shown
      cases e.event <;> rfl
    cases hq : e.pc with
    | none =>
      have heq : (⟨none, sh', log⟩ : Serving) = ⟨e.pc, e.shared, a.log ++ e.event.toList⟩ := by
        refine Leads.eq_of_none hrun ?_
        unfold serveStep
        dsimp only
        rw [hq]
      obtain ⟨-, rfl, rfl⟩ := Serving.mk.inj heq
      refine ⟨e.event.toList, rfl, ?_⟩
      have hout := hshown []
      rw [List.append_nil, List.filterMap_nil, List.append_nil] at hout
      rw [hout]
      refine .last ?_
      rw [hw, ← hq]
    | some pc₂ =>
      obtain ⟨evs, rfl, hends⟩ := ih hq
      refine ⟨e.event.toList ++ evs, List.append_assoc .., ?_⟩
      rw [hshown]
      refine .next ?_ hends
      rw [hw, ← hq]

end

end FileStorage.Service

import FileStorage.Wire.Conn

/-!
# The fields of a message

`main` takes the first token of a text as `api_id`; `threadF` tokenises what is
behind it, and each handler takes as many tokens as it has fields. `strtok_r`
skips empty fields and returns `NULL` when none is left, and nobody compares a
token with `NULL` before it goes to `strtol`, `strncmp` or `searchFileNode`.

`needs` is the number of tokens that the handler of an `api_id` uses. The
handler stops at a token that is not there exactly when there are fewer
(`threadFOp_undefined_iff`). In an append the two functions share the text:
`main` cuts it behind the pathname, and the pathname is what the handler finds
again (`strtok_strtokLeft`); the size is read with `strtol` from whatever is
left, so it may be absent.
-/

namespace FileStorage.Wire

open FileStorage.Lib FileStorage.Worker

/-- How many tokens behind the `api_id` the handler uses. -/
def needs (apiId : Int) : Nat :=
  if apiId = 1 ∨ apiId = 3 ∨ apiId = 5 then 1 else if apiId = 2 then 2 else 0

/-- The text has an `api_id` and the tokens that its handler uses. -/
def FieldsPresent (text : Bytes) : Prop :=
  ∃ token fields, tokens comma (cstr text) = token :: fields ∧
    needs (strtol token) ≤ fields.length

/-- The server uses no token that is not there: `main` finds the `api_id`, and
the handler of every request that `main` makes of the text finds its fields. -/
structure NoMissingField (text : Bytes) : Prop where
  main : (strtok comma (cstr text)).1 ≠ none
  handler : ∀ c rq c', parseSms (text ++ [0]) c = .ok (rq, c') → threadFOp rq ≠ .error .undefined

/-! ## The handlers -/

/-- At least one token is left, or none. -/
theorem tokens_lt_one {s : Bytes} : (tokens comma s).length < 1 ↔ (strtok comma s).1 = none := by
  rw [← tokens_eq_nil, Nat.lt_one_iff, List.length_eq_zero_iff]

/-- A handler that uses one token. -/
theorem one_token_iff {s : Bytes} {f : Bytes → Option Op} :
    (match strtok comma s with
      | (none, _) => Except.error Stop.undefined
      | (some token, _) => .ok (f token)) = .error .undefined ↔ (tokens comma s).length < 1 := by
  rw [tokens_lt_one]
  cases h : strtok comma s with
  | mk o r =>
    cases o with
    | none => exact ⟨fun _ => rfl, fun _ => rfl⟩
    | some t => exact ⟨(fun he => by cases he), (fun he => by cases he)⟩

/-- The handler that uses two. -/
theorem two_tokens_iff {s : Bytes} {f : Bytes → Bytes → Option Op} :
    (match strtok comma s with
      | (none, _) => Except.error Stop.undefined
      | (some pathfile, tmp) =>
        match strtok comma tmp with
        | (none, _) => .error .undefined
        | (some token, _) => .ok (f pathfile token)) = .error .undefined ↔
      (tokens comma s).length < 2 := by
  cases h : strtok comma s with
  | mk o tmp =>
    cases o with
    | none =>
      have hnil : tokens comma s = [] := tokens_eq_nil.mpr (by rw [h])
      rw [hnil]
      exact ⟨fun _ => Nat.zero_lt_two, fun _ => rfl⟩
    | some pathfile =>
      rw [tokens_eq h, List.length_cons, Nat.succ_lt_succ_iff]
      exact one_token_iff

/-- A handler stops at a token that is not there if and only if the text behind
the `api_id` has too few. -/
theorem threadFOp_undefined_iff (rq : SmsRequest) :
    threadFOp rq = .error .undefined ↔ (tokens comma rq.smsInfo).length < needs rq.apiId := by
  unfold threadFOp needs
  by_cases h1 : rq.apiId = 1
  · rw [if_pos h1, if_pos (.inl h1)]
    exact one_token_iff
  rw [if_neg h1]
  by_cases h2 : rq.apiId = 2
  · rw [if_pos h2, if_neg (by omega), if_pos h2]
    exact two_tokens_iff
  rw [if_neg h2]
  by_cases h3 : rq.apiId = 3
  · rw [if_pos h3, if_pos (.inr (.inl h3))]
    exact one_token_iff
  rw [if_neg h3]
  by_cases h5 : rq.apiId = 5
  · rw [if_neg (by omega), if_pos h5, if_pos (.inr (.inr h5))]
    exact one_token_iff
  -- the other handlers take the text as it is
  have hneeds : ¬ (rq.apiId = 1 ∨ rq.apiId = 3 ∨ rq.apiId = 5) := by omega
  rw [if_neg h5, if_neg hneeds, if_neg h2]
  refine ⟨fun he => ?_, fun hlt => absurd hlt (Nat.not_lt_zero _)⟩
  split at he
  · cases he
  · split at he
    · cases he
    · cases he

/-! ## From main to the handler -/

section

variable {text token tmp : Bytes} {c c' : Conn} {rq : SmsRequest}

/-- The request has the number that the first token says, and its text has the
fields that are left: all of them, or at least the first one for an append. -/
theorem parseSms_fields (htok : strtok comma (cstr text) = (some token, tmp))
    (h : parseSms (text ++ [0]) c = .ok (rq, c')) :
    rq.apiId = strtol token ∧
      ((tokens comma rq.smsInfo).length < needs (strtol token) ↔
        (tokens comma tmp).length < needs (strtol token)) := by
  unfold parseSms at h
  rw [cstr_append_zero, htok] at h
  simp only at h
  by_cases h5 : strtol token = 5
  · rw [if_pos h5] at h
    split at h
    · cases h
    · split at h
      · cases h
      · obtain ⟨⟨content, c₁⟩, -, h⟩ := bind_eq_ok h
        cases h
        have hone : needs (strtol token) = 1 := by
          rw [h5]
          rfl
        refine ⟨rfl, ?_⟩
        rw [hone, tokens_lt_one, tokens_lt_one, strtok_strtokLeft]
  · rw [if_neg h5] at h
    cases h
    exact ⟨rfl, Iff.rfl⟩

/-- A text whose fields are missing still becomes a request: the size of an
append is zero when it is not there. -/
theorem parseSms_of_missing (htok : strtok comma (cstr text) = (some token, tmp))
    (hmissing : (tokens comma tmp).length < needs (strtol token)) (c : Conn) :
    ∃ rq c', parseSms (text ++ [0]) c = .ok (rq, c') := by
  unfold parseSms
  rw [cstr_append_zero, htok]
  simp only
  by_cases h5 : strtol token = 5
  · have hone : needs (strtol token) = 1 := by
      rw [h5]
      rfl
    rw [hone, tokens_lt_one] at hmissing
    have hsize : strtol (strtok comma tmp).2 = 0 := by
      rw [strtok_none hmissing]
      rfl
    have hread : readnExit c 0 = .ok ([], c) := by
      obtain ⟨sched, stream⟩ := c
      cases sched <;> rfl
    rw [if_pos h5, hsize, if_neg (by decide), if_neg (by decide)]
    show ∃ rq c', (receive c 0 .ample >>= _) = _
    rw [receive_ample, hread]
    exact ⟨_, _, rfl⟩
  · rw [if_neg h5]
    exact ⟨_, _, rfl⟩

end

/-- **No missing field is used if and only if** the text has an `api_id` and the
tokens that its handler needs. -/
theorem noMissingField_iff (text : Bytes) : NoMissingField text ↔ FieldsPresent text := by
  cases htok : strtok comma (cstr text) with
  | mk o tmp =>
    cases o with
    | none =>
      constructor
      · intro hno
        exact absurd (by rw [htok]) hno.main
      · intro hpresent
        obtain ⟨token, fields, hfields, -⟩ := hpresent
        rw [tokens_eq_nil.mpr (by rw [htok])] at hfields
        cases hfields
    | some token =>
      have htokens := tokens_eq htok
      constructor
      · intro hno
        refine ⟨token, tokens comma tmp, htokens, Nat.not_lt.mp fun hmissing => ?_⟩
        obtain ⟨rq, c', hrq⟩ := parseSms_of_missing htok hmissing ⟨[], []⟩
        obtain ⟨hapi, hlen⟩ := parseSms_fields htok hrq
        refine hno.handler _ rq c' hrq ((threadFOp_undefined_iff rq).mpr ?_)
        rw [hapi]
        exact hlen.mpr hmissing
      · intro hpresent
        obtain ⟨first, fields, hfields, hle⟩ := hpresent
        obtain ⟨rfl, rfl⟩ := List.cons.inj (htokens.symm.trans hfields)
        refine ⟨by rw [htok]; exact Option.some_ne_none _, fun c rq c' hrq hun => ?_⟩
        obtain ⟨hapi, hlen⟩ := parseSms_fields htok hrq
        have hmissing := (threadFOp_undefined_iff rq).mp hun
        rw [hapi] at hmissing
        exact Nat.not_lt.mpr hle (hlen.mp hmissing)

/-- The text `2,/a` has no flag: `threadF` calls `strncmp` with `NULL`. -/
theorem missing_flag_used : ¬ NoMissingField [50, 44, 47, 97] := by
  intro hno
  exact hno.handler ⟨[], []⟩ _ _ rfl rfl

end FileStorage.Wire

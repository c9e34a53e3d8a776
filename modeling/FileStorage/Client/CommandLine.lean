import FileStorage.Client.Model
import FileStorage.Lib.Getopt
import FileStorage.Wire.Conn

/-!
# The command line of the client

`main` of `client.c` up to the connection: the loop over `getopt` that collects
the requests (`createRequest`), with the second `getopt` behind `-d`, and the
checks behind the loop.

`meaning` says what a list of options asks for, without a loop. Every command
line is read as the options that it spells (`commandLine_iff`), and what can be
asked for can be written (`commandLine_argv`).

* `optstring` has no `D`, and it does not begin with `:`; so the cases `D` and
  `:` of the switch are never taken, and a missing argument is a `?` as well.
* A blank stands in `optstring`, so it is an option; it falls to `default`.
* `-c`, `-u` and `-l` print that they are under construction.
-/

namespace FileStorage.Client

open FileStorage.Lib
open FileStorage.Wire (toInt32 toInt32_of_lt)

/-- `"p c:u:h l:t:d:R:r:f:w:W:"` -/
def optstring : Bytes :=
  [112, 32, 99, 58, 117, 58, 104, 32, 108, 58, 116, 58, 100, 58, 82, 58, 114, 58, 102, 58, 119, 58,
    87, 58]

/-- `"r:R:"`, behind `-d`. -/
def dirOptstring : Bytes := [114, 58, 82, 58]

/-- Why there is no request: the text that is printed, and whether it is `exit` or
`return -1` that ends the process. -/
inductive Refusal where
  /-- "usage: ./client option [parameters]", `exit`. -/
  | usage
  /-- "-%c opzione non corretta", `exit`. -/
  | badOption (optopt : UInt8)
  /-- "Usage -d option: ...", `return -1`. -/
  | dirUsage
  /-- "request -h -f or -p more than one", `return -1`. -/
  | repeated
  /-- "Socket error", `return -1`. -/
  | socket
  deriving DecidableEq

/-- `nb_request` and the counters, inside the loop. -/
structure Reading where
  charH : Bool
  charP : Bool
  charT : Int
  charF : Option Bytes
  cntH : Nat
  cntF : Nat
  cntP : Nat
  requests : List Command

/-- `initLstRequest`. -/
def Reading.start : Reading := ⟨false, false, 0, none, 0, 0, 0, []⟩

/-- What is left of `nb_request` for the requests, with `char_p` and `char_t`. -/
structure Parsed extends NbRequest where
  charP : Bool
  charT : Int

namespace Reading

/-- `createRequest`. -/
def createRequest (n : Reading) (c : Command) : Reading := { n with requests := n.requests ++ [c] }

/-- An option without an argument. -/
def flag (n : Reading) (c : UInt8) : Reading :=
  if c = 104 then { n with charH := true, cntH := n.cntH + 1 }
  else if c = 112 then { n with charP := true, cntP := n.cntP + 1 }
  else n

/-- An option with its argument. -/
def arg (n : Reading) (c : UInt8) (optarg : Bytes) : Reading :=
  if c = 102 then { n with charF := some optarg, cntF := n.cntF + 1 }
  else if c = 119 then n.createRequest (.w optarg)
  else if c = 87 then n.createRequest (.W optarg)
  else if c = 114 then n.createRequest (.r optarg none)
  else if c = 82 then n.createRequest (.R (some optarg) none)
  else if c = 116 then { n with charT := toInt32 (strtol optarg) }
  else n

end Reading

/-- The loop over the options. -/
def readOptions (n : Reading) (s : Scan) : Except Refusal Reading :=
  match _hget : getopt optstring s with
  | (.finished, _) => .ok n
  | (.bad optopt, _) => .error (.badOption optopt)
  | (.option (.flag c), s') => readOptions (n.flag c) s'
  | (.option (.arg c optarg), s') =>
    if c = 100 then
      match _hdir : getopt dirOptstring s' with
      | (.option (.arg c' optarg'), s'') =>
        if c' = 114 then readOptions (n.createRequest (.r optarg' (some optarg))) s''
        else if c' = 82 then readOptions (n.createRequest (.R (some optarg') (some optarg))) s''
        else .error .dirUsage
      | _ => .error .dirUsage
    else readOptions (n.arg c optarg) s'
termination_by s.size
decreasing_by
  · exact size_getopt _hget
  · exact Nat.lt_trans (size_getopt _hdir) (size_getopt _hget)
  · exact Nat.lt_trans (size_getopt _hdir) (size_getopt _hget)
  · exact size_getopt _hget

/-- The checks behind the loop. -/
def checkOptions (n : Reading) : Except Refusal Parsed :=
  if 1 < n.cntH ∨ 1 < n.cntF ∨ 1 < n.cntP then .error .repeated
  else
    match n.charF with
    | none => .error .socket
    | some charF => .ok ⟨⟨n.charH, charF, n.requests⟩, n.charP, n.charT⟩

/-- `main`, up to the connection. -/
def commandLine (argv : List Bytes) : Except Refusal Parsed :=
  if argv.length < 2 then .error .usage
  else
    match readOptions .start ⟨[], argv.tail⟩ with
    | .error e => .error e
    | .ok n => checkOptions n

/-! ## What the options ask for -/

/-- `-d`. -/
def isDirOption : Opt → Bool
  | .arg c _ => c == 100
  | .flag _ => false

/-- `-r` or `-R`. -/
def isReadOption : Opt → Bool
  | .arg c _ => c == 114 || c == 82
  | .flag _ => false

/-- Behind every `-d` stands a `-r` or `-R`. -/
def paired : List Opt → Bool
  | [] => true
  | o :: l => (!isDirOption o || l.head?.any isReadOption) && paired l

/-- The request of one option. -/
def command (c : UInt8) (param : Bytes) (dirname : Option Bytes) : Option Command :=
  if c = 119 then some (.w param)
  else if c = 87 then some (.W param)
  else if c = 114 then some (.r param dirname)
  else if c = 82 then some (.R (some param) dirname)
  else none

/-- The requests in order; `dirname` is that of a `-d` in front. -/
def requestsOf (dirname : Option Bytes) : List Opt → List Command
  | [] => []
  | .flag _ :: l => requestsOf none l
  | .arg c a :: l =>
    if c = 100 then requestsOf (some a) l else (command c a dirname).toList ++ requestsOf none l

/-- The argument of an option, if it is the option `c`. -/
def valueOf (c : UInt8) : Opt → Option Bytes
  | .arg c' a => if c' = c then some a else none
  | .flag _ => none

/-- The arguments of one option, in their order. -/
def values (c : UInt8) (l : List Opt) : List Bytes := l.filterMap (valueOf c)

/-- What a list of options asks for, up to its end. -/
def meaning (l : List Opt) (e : End) : Except Refusal Parsed :=
  if paired l = false then .error .dirUsage
  else
    match e with
    | .bad optopt => .error (.badOption optopt)
    | .stop _ =>
      if 1 < l.count (.flag 104) ∨ 1 < (values 102 l).length ∨ 1 < l.count (.flag 112) then
        .error .repeated
      else
        match values 102 l with
        | [] => .error .socket
        | charF :: _ =>
          .ok ⟨⟨l.contains (.flag 104), charF, requestsOf none l⟩, l.contains (.flag 112),
            ((values 116 l).getLast?.map fun a => toInt32 (strtol a)).getD 0⟩

/-! ## The loop -/

/-- What the loop has read behind the options `l`. -/
def Reading.after (n : Reading) (l : List Opt) : Reading where
  charH := n.charH || l.contains (.flag 104)
  charP := n.charP || l.contains (.flag 112)
  charT := ((values 116 l).getLast?.map fun a => toInt32 (strtol a)).getD n.charT
  charF := (values 102 l).getLast?.or n.charF
  cntH := n.cntH + l.count (.flag 104)
  cntF := n.cntF + (values 102 l).length
  cntP := n.cntP + l.count (.flag 112)
  requests := n.requests ++ requestsOf none l

section

variable {n : Reading} {s s' : Scan} {l : List Opt} {e : End} {c c' : UInt8} {a a' : Bytes}

theorem after_nil : n.after [] = n := by
  obtain ⟨charH, charP, charT, charF, cntH, cntF, cntP, requests⟩ := n
  simp [Reading.after, values, requestsOf]

theorem values_flag : values c (.flag c' :: l) = values c l := rfl

theorem values_arg : values c (.arg c' a :: l) = (if c' = c then [a] else []) ++ values c l := by
  unfold values
  rw [List.filterMap_cons]
  by_cases h : c' = c
  · simp [valueOf, h]
  · simp [valueOf, h]

theorem last_or {α : Type} (a : α) (l : List α) (o : Option α) :
    (a :: l).getLast?.or o = l.getLast?.or (some a) := by
  rw [List.getLast?_cons]
  cases l.getLast? <;> rfl

/-- A flag in front of the options that are left. -/
theorem after_flag : (n.flag c).after l = n.after (.flag c :: l) := by
  unfold Reading.flag
  split
  · next hc =>
    subst hc
    simp [Reading.after, values_flag, requestsOf, Nat.add_assoc, Nat.add_comm 1]
  · next hh =>
    split
    · next hc =>
      subst hc
      simp [Reading.after, values_flag, requestsOf, Nat.add_assoc, Nat.add_comm 1]
    · next hp =>
      simp [Reading.after, values_flag, requestsOf, hh, hp, Ne.symm hh, Ne.symm hp]

/-- An argument in front of the options that are left. -/
theorem after_arg (hc : c ≠ 100) : (n.arg c a).after l = n.after (.arg c a :: l) := by
  unfold Reading.arg
  split
  · next h =>
    subst h
    simp [Reading.after, values_arg, requestsOf, command, last_or, Nat.add_assoc, Nat.add_comm 1]
  · next hf =>
    split
    · next h =>
      subst h
      simp [Reading.after, Reading.createRequest, values_arg, requestsOf, command]
    · next hw =>
      split
      · next h =>
        subst h
        simp [Reading.after, Reading.createRequest, values_arg, requestsOf, command]
      · next hW =>
        split
        · next h =>
          subst h
          simp [Reading.after, Reading.createRequest, values_arg, requestsOf, command]
        · next hr =>
          split
          · next h =>
            subst h
            simp [Reading.after, Reading.createRequest, values_arg, requestsOf, command]
          · next hR =>
            split
            · next h =>
              subst h
              simp [Reading.after, values_arg, requestsOf, command, List.getLast?_cons]
            · next ht =>
              simp [Reading.after, values_arg, requestsOf, command, hc, hf, hw, hW, hr, hR, ht]

/-- A `-d` in front of a reading request belongs to it. -/
theorem after_dir {d : Bytes} (hc : c = 114 ∨ c = 82) {r : Command}
    (hr : command c a (some d) = some r) :
    (n.createRequest r).after l = n.after (.arg 100 d :: .arg c a :: l) := by
  rcases hc with rfl | rfl
  · cases hr
    simp [Reading.after, Reading.createRequest, values_arg, requestsOf, command]
  · cases hr
    simp [Reading.after, Reading.createRequest, values_arg, requestsOf, command]

/-! ## One pass of the loop -/

/-- The loop, with the nested `getopt` as one step of its own. -/
theorem readOptions_eq :
    readOptions n s =
      match getopt optstring s with
      | (.finished, _) => .ok n
      | (.bad optopt, _) => .error (.badOption optopt)
      | (.option (.flag c), s') => readOptions (n.flag c) s'
      | (.option (.arg c optarg), s') =>
        if c = 100 then
          match getopt dirOptstring s' with
          | (.option (.arg c' optarg'), s'') =>
            if c' = 114 then readOptions (n.createRequest (.r optarg' (some optarg))) s''
            else if c' = 82 then
              readOptions (n.createRequest (.R (some optarg') (some optarg))) s''
            else .error .dirUsage
          | _ => .error .dirUsage
        else readOptions (n.arg c optarg) s' := by
  rw [readOptions]
  split
  · next hget => rw [hget]
  · next hget => rw [hget]
  · next hget => rw [hget]
  · next hget =>
    rw [hget]
    dsimp only
    split
    · split
      · next hdir => rw [hdir]
      · next hno =>
        split
        · next hdir => exact (hno _ _ _ hdir).elim
        · rfl
    · rfl

/-- The options of the second `getopt` are `-r` and `-R`. -/
theorem kind_dirOptstring : kind dirOptstring c ≠ .unknown ↔ c = 114 ∨ c = 82 := by
  constructor
  · intro h
    by_contra hc
    rw [not_or] at hc
    obtain ⟨hr, hR⟩ := hc
    apply h
    unfold kind
    split
    · rfl
    · next hcolon =>
      change ¬ c = 58 at hcolon
      simp [dirOptstring, List.dropWhile, bne, beq_eq_false_iff_ne.2 (Ne.symm hr),
        beq_eq_false_iff_ne.2 (Ne.symm hR), beq_eq_false_iff_ne.2 (Ne.symm hcolon)]
  · rintro (rfl | rfl)
    · decide
    · decide

theorem kind_dir_eq (c : UInt8) (h : kind dirOptstring c ≠ .unknown) :
    kind dirOptstring c = kind optstring c := by
  rcases kind_dirOptstring.1 h with rfl | rfl
  · rfl
  · rfl

/-- What the loop returns, if the options `l` are left up to the end `e`. -/
def Reading.result (n : Reading) (l : List Opt) (e : End) : Except Refusal Reading :=
  if paired l = false then .error .dirUsage
  else
    match e with
    | .bad optopt => .error (.badOption optopt)
    | .stop _ => .ok (n.after l)

theorem result_congr {m : Reading} {l' : List Opt} (hp : paired l' = paired l)
    (ha : m.after l = n.after l') : m.result l e = n.result l' e := by
  unfold Reading.result
  rw [hp, ha]

/-- Where a `-d` is not followed by `-r` or `-R`, the second `getopt` finds nothing
of use. -/
theorem getopt_dir_none (h : Spells optstring s l e) (hl : l.head?.any isReadOption = false)
    (c : UInt8) (a : Bytes) (s' : Scan) : getopt dirOptstring s ≠ (.option (.arg c a), s') := by
  intro hget
  obtain ⟨hget, hk⟩ := (getopt_restrict kind_dir_eq).1 hget
  cases l with
  | nil =>
    have hend := h.getopt_nil
    rw [hget] at hend
    cases e <;> cases hend
  | cons o l =>
    obtain ⟨s'', hget', -⟩ := h.getopt_cons
    rw [hget] at hget'
    cases hget'
    rcases kind_dirOptstring.1 hk with rfl | rfl
    · cases hl
    · cases hl

theorem head_isReadOption (h : l.head?.any isReadOption = true) :
    ∃ c a l', l = .arg c a :: l' ∧ (c = 114 ∨ c = 82) := by
  match l, h with
  | .arg c a :: l, h =>
    have hc : (c == 114 || c == 82) = true := h
    rw [Bool.or_eq_true, beq_iff_eq, beq_iff_eq] at hc
    exact ⟨c, a, l, rfl, hc⟩

/-- The loop reads the options that the words spell. -/
theorem readOptions_spells (h : Spells optstring s l e) : readOptions n s = n.result l e := by
  obtain ⟨k, hk⟩ : ∃ k, l.length = k := ⟨_, rfl⟩
  induction k using Nat.strongRecOn generalizing n s l with
  | ind k ih =>
    rw [readOptions_eq]
    match l, h with
    | [], h =>
      obtain ⟨s', hget⟩ : ∃ s', getopt optstring s = (e.found, s') :=
        ⟨_, Prod.ext h.getopt_nil rfl⟩
      rw [hget]
      cases e with
      | bad optopt => rfl
      | stop rest => exact congrArg Except.ok after_nil.symm
    | .flag c :: l, h =>
      obtain ⟨s', hget, h⟩ := h.getopt_cons
      rw [hget]
      exact (ih _ (hk ▸ Nat.lt_succ_self _) h rfl).trans (result_congr rfl after_flag)
    | .arg c a :: l, h =>
      obtain ⟨s', hget, hrest⟩ := h.getopt_cons
      rw [hget]
      dsimp only
      split
      · next hc =>
        subst hc
        by_cases hl : l.head?.any isReadOption = true
        · obtain ⟨c, p, l', rfl, hc⟩ := head_isReadOption hl
          obtain ⟨s'', hread, hbehind⟩ := hrest.getopt_cons
          have hlen : l'.length < k := by
            rw [← hk, List.length_cons, List.length_cons]
            omega
          rw [(getopt_restrict kind_dir_eq).2 ⟨hread, kind_dirOptstring.2 hc⟩]
          rcases hc with rfl | rfl
          · refine (ih _ hlen hbehind rfl).trans ?_
            exact result_congr rfl (after_dir (.inl rfl) rfl)
          · refine (ih _ hlen hbehind rfl).trans ?_
            exact result_congr rfl (after_dir (.inr rfl) rfl)
        · rw [Bool.not_eq_true] at hl
          have hp : paired (.arg 100 a :: l) = false := by simp [paired, isDirOption, hl]
          unfold Reading.result
          rw [if_pos hp]
          split
          · next hdir => exact absurd hdir (getopt_dir_none hrest hl _ _ _)
          · rfl
      · next hc =>
        refine (ih _ (hk ▸ Nat.lt_succ_self _) hrest rfl).trans (result_congr ?_ (after_arg hc))
        simp [paired, isDirOption, hc]

/-- What the loop collects has the meaning of the options. -/
theorem meaning_eq : (Reading.start.result l e).bind checkOptions = meaning l e := by
  unfold Reading.result meaning
  split
  · rfl
  · cases e with
    | bad optopt => rfl
    | stop rest =>
      simp only [Except.bind, checkOptions, Reading.after, Reading.start, Nat.zero_add]
      split
      · rfl
      · next hrepeated =>
        rw [not_or, not_or] at hrepeated
        have hone : (values 102 l).length ≤ 1 := Nat.not_lt.1 hrepeated.2.1
        match hv : values 102 l, hone with
        | [], _ => rfl
        | [charF], _ => simp

/-- Any spelling of the options is read as they are meant. -/
theorem commandLine_spells {name : Bytes} {args : List Bytes} (h : Spells optstring ⟨[], args⟩ l e)
    (hne : args ≠ []) : commandLine (name :: args) = meaning l e := by
  have hpos := List.length_pos_iff.2 hne
  unfold commandLine
  rw [if_neg, List.tail_cons, readOptions_spells h, ← meaning_eq]
  · cases Reading.start.result l e <;> rfl
  · rw [List.length_cons]
    omega

/-- **The command line is read as the options that it spells.** -/
theorem commandLine_iff (name : Bytes) (args : List Bytes) (r : Except Refusal Parsed) :
    commandLine (name :: args) = r ↔
      args = [] ∧ r = .error .usage ∨
        args ≠ [] ∧ ∃ l e, Spells optstring ⟨[], args⟩ l e ∧ meaning l e = r := by
  cases args with
  | nil => simp [commandLine, eq_comm]
  | cons a args =>
    have hne : a :: args ≠ [] := List.cons_ne_nil _ _
    obtain ⟨l, e, hs⟩ := spells_exists optstring ⟨[], a :: args⟩
    constructor
    · intro h
      exact .inr ⟨hne, l, e, hs, (commandLine_spells hs hne).symm.trans h⟩
    · rintro (⟨h, -⟩ | ⟨-, l, e, hs, h⟩)
      · cases h
      · exact (commandLine_spells hs hne).trans h

end

/-! ## Writing a command line -/

/-- The options that ask for a request. -/
def Command.options : Command → List Opt
  | .w param => [.arg 119 param]
  | .W param => [.arg 87 param]
  | .r param dirname => (dirname.map (Opt.arg 100)).toList ++ [.arg 114 param]
  | .R param dirname => (dirname.map (Opt.arg 100)).toList ++ [.arg 82 (param.getD [])]

def Parsed.options (p : Parsed) : List Opt :=
  .arg 102 p.charF :: .arg 116 (decimal p.charT.toNat) ::
    ((if p.charH then [.flag 104] else []) ++ ((if p.charP then [.flag 112] else []) ++
      p.requests.flatMap Command.options))

/-- `argv` for them. -/
def Parsed.argv (p : Parsed) (name : Bytes) : List Bytes := name :: p.options.flatMap Opt.words

section

variable {p : Parsed} {c : Command} {n : Reading} {l : List Opt} {a : UInt8}

/-- The options that a request is written with are those of the client. -/
theorem command_known (c : Command) : ∀ o ∈ c.options, o.Known optstring :=
  match c with
  | .w _ | .W _ | .r _ none | .R _ none => List.forall_mem_singleton.2 ⟨rfl, by decide⟩
  | .r _ (some _) | .R _ (some _) =>
    List.forall_mem_cons.2 ⟨⟨rfl, by decide⟩, List.forall_mem_singleton.2 ⟨rfl, by decide⟩⟩

theorem flag_known {b : Bool} (h : kind optstring a = .flag ∧ a ≠ dash) :
    ∀ o ∈ (if b then [Opt.flag a] else []), o.Known optstring := by
  cases b with
  | false => exact nofun
  | true => exact List.forall_mem_singleton.2 h

theorem options_known (p : Parsed) : ∀ o ∈ p.options, o.Known optstring := by
  refine List.forall_mem_cons.2 ⟨⟨rfl, by decide⟩, List.forall_mem_cons.2 ⟨⟨rfl, by decide⟩, ?_⟩⟩
  refine List.forall_mem_append.2 ⟨flag_known ⟨rfl, by decide⟩, ?_⟩
  refine List.forall_mem_append.2 ⟨flag_known ⟨rfl, by decide⟩, ?_⟩
  intro o ho
  obtain ⟨c, -, ho⟩ := List.mem_flatMap.1 ho
  exact command_known c o ho

/-- A request is asked for by its own options, and they count for nothing else. -/
theorem after_options (hR : ∀ d, c ≠ .R none d) :
    n.after (c.options ++ l) = (n.createRequest c).after l := by
  have harg : ∀ {c a}, c ≠ 100 → n.after (.arg c a :: l) = (n.arg c a).after l :=
    fun hc => (after_arg hc).symm
  match c, hR with
  | .w param, _ => exact harg (by decide)
  | .W param, _ => exact harg (by decide)
  | .r param none, _ => exact harg (by decide)
  | .r param (some d), _ => exact (after_dir (.inl rfl) rfl).symm
  | .R (some param) none, _ => exact harg (by decide)
  | .R (some param) (some d), _ => exact (after_dir (.inr rfl) rfl).symm
  | .R none d, hR => exact absurd rfl (hR d)

theorem after_requests {requests : List Command} (hR : ∀ d, .R none d ∉ requests) :
    n.after (requests.flatMap Command.options) = { n with requests := n.requests ++ requests } := by
  induction requests generalizing n with
  | nil => exact after_nil.trans (by rw [List.append_nil])
  | cons c requests ih =>
    rw [List.flatMap_cons, after_options fun d hc => hR d (hc ▸ List.mem_cons_self),
      ih fun d hd => hR d (List.mem_cons_of_mem _ hd)]
    simp [Reading.createRequest]

theorem paired_requests {requests : List Command} :
    paired (requests.flatMap Command.options) = true := by
  induction requests with
  | nil => rfl
  | cons c requests ih =>
    rw [List.flatMap_cons]
    match c with
    | .w _ | .W _ | .r _ none | .R _ none => exact ih
    | .r _ (some _) | .R _ (some _) => exact ih

theorem paired_options : paired p.options = true := by
  obtain ⟨⟨charH, charF, requests⟩, charP, charT⟩ := p
  cases charH <;> cases charP <;> exact paired_requests

theorem after_flags {b : Bool} :
    n.after ((if b then [.flag a] else []) ++ l) = (if b then n.flag a else n).after l := by
  cases b with
  | false => rfl
  | true => exact after_flag.symm

/-- Reading the options of the settings gives the settings. -/
theorem after_parsed (hT : 0 ≤ p.charT ∧ p.charT < 2 ^ 31) (hR : ∀ d, .R none d ∉ p.requests) :
    Reading.start.after p.options =
      ⟨p.charH, p.charP, p.charT, some p.charF, p.charH.toNat, 1, p.charP.toNat, p.requests⟩ := by
  have ht : toInt32 (strtol (decimal p.charT.toNat)) = p.charT := by
    rw [strtol_decimal (by unfold LONG_MAX; omega), toInt32_of_lt (by omega)]
    omega
  unfold Parsed.options
  rw [← after_arg (by decide), ← after_arg (by decide), after_flags, after_flags, after_requests hR]
  obtain ⟨⟨charH, charF, requests⟩, charP, charT⟩ := p
  cases charH <;> cases charP <;>
    simp [Reading.arg, Reading.flag, Reading.start, ht]

end

/-- **What can be asked for can be written.** -/
theorem commandLine_argv (name : Bytes) (p : Parsed) (hT : 0 ≤ p.charT ∧ p.charT < 2 ^ 31)
    (hR : ∀ d, .R none d ∉ p.requests) : commandLine (p.argv name) = .ok p := by
  unfold Parsed.argv
  rw [commandLine_spells (spells_words (options_known p)) (by simp [Parsed.options, Opt.words]),
    ← meaning_eq]
  unfold Reading.result
  rw [if_neg (by rw [paired_options]; decide), after_parsed hT hR]
  obtain ⟨⟨charH, charF, requests⟩, charP, charT⟩ := p
  cases charH <;> cases charP <;> rfl

/-- `-f s -t 20 -p -W a -d d -r b`. -/
theorem commandLine_argv_two :
    commandLine [[99], [45, 102], [115], [45, 116], [50, 48], [45, 112], [45, 87], [97], [45, 100],
        [100], [45, 114], [98]] =
      .ok ⟨⟨false, [115], [.W [97], .r [98] (some [100])]⟩, true, 20⟩ :=
  commandLine_argv [99] ⟨⟨false, [115], [.W [97], .r [98] (some [100])]⟩, true, 20⟩ (by decide)
    (by simp)

end FileStorage.Client

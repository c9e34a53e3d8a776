import FileStorage.Lib.Text
import Mathlib.Order.Basic

/-!
# The options of a command line

`getopt`, as POSIX has it. An option is a byte of `optstring`; if a colon follows
it there, it takes an argument, which is the rest of its word or else the next
word. Options without an argument may share a word. The options end at the first
word that does not begin with `-`, at `-` itself, and behind `--`.

`Spells optstring s l e` says that the words `s` spell the options `l`, in any of
these ways, up to the end `e`. Every command line spells one list of options
(`spells_exists`), any options are spelled by some words (`spells_words`), and
`getopt` reads them off, one after the other (`Spells.getopt_cons`,
`Spells.getopt_nil`).
-/

namespace FileStorage.Lib

/-- `-`. -/
def dash : UInt8 := 45

/-- `:`. -/
def colon : UInt8 := 58

/-- What was not read yet: the rest of a word that was begun, and the words
behind it. -/
structure Scan where
  cluster : Bytes
  args : List Bytes
  deriving DecidableEq

/-- An option, with its argument if it takes one. -/
inductive Opt where
  | flag (c : UInt8)
  | arg (c : UInt8) (optarg : Bytes)
  deriving DecidableEq

/-- What `getopt` returns: an option, `?` with `optopt`, or -1. -/
inductive Found where
  | option (o : Opt)
  | bad (optopt : UInt8)
  | finished
  deriving DecidableEq

/-- What `optstring` says of a byte. -/
inductive Kind where
  | unknown
  | flag
  | takesArg
  deriving DecidableEq

def kind (optstring : Bytes) (c : UInt8) : Kind :=
  if c = colon then .unknown
  else
    match optstring.dropWhile (· != c) with
    | [] => .unknown
    | [_] => .flag
    | _ :: d :: _ => if d = colon then .takesArg else .flag

/-- The option `c` was met, `s` is behind it. -/
def scanOption (optstring : Bytes) (c : UInt8) (s : Scan) : Found × Scan :=
  match kind optstring c with
  | .unknown => (.bad c, s)
  | .flag => (.option (.flag c), s)
  | .takesArg =>
    if s.cluster ≠ [] then (.option (.arg c s.cluster), ⟨[], s.args⟩)
    else
      match s.args with
      | [] => (.bad c, s)
      | optarg :: args => (.option (.arg c optarg), ⟨[], args⟩)

def getopt (optstring : Bytes) (s : Scan) : Found × Scan :=
  match s.cluster with
  | c :: cs => scanOption optstring c ⟨cs, s.args⟩
  | [] =>
    match s.args with
    | (d :: c :: cs) :: args =>
      if d = dash then
        if c = dash ∧ cs = [] then (.finished, ⟨[], args⟩)
        else scanOption optstring c ⟨cs, args⟩
      else (.finished, s)
    | _ => (.finished, s)

/-- The length of words, with their ends. -/
def wordsSize : List Bytes → Nat
  | [] => 0
  | a :: args => a.length + 1 + wordsSize args

/-- How much is left to read. -/
def Scan.size (s : Scan) : Nat := s.cluster.length + wordsSize s.args

/-- The words begin with none that is an option. -/
def Stops : List Bytes → Prop
  | (d :: _ :: _) :: _ => d ≠ dash
  | _ => True

/-- How the options end. -/
inductive End where
  | stop (rest : List Bytes)
  | bad (optopt : UInt8)
  deriving DecidableEq

/-- What `getopt` returns there. -/
def End.found : End → Found
  | .stop _ => .finished
  | .bad c => .bad c

/-- The words spell the options, up to the end. -/
inductive Spells (optstring : Bytes) : Scan → List Opt → End → Prop
  | stop {args : List Bytes} (h : Stops args) : Spells optstring ⟨[], args⟩ [] (.stop args)
  | dashes {args : List Bytes} : Spells optstring ⟨[], [dash, dash] :: args⟩ [] (.stop args)
  | word {c : UInt8} {cs : Bytes} {args : List Bytes} {l : List Opt} {e : End}
      (hne : ¬ (c = dash ∧ cs = [])) (h : Spells optstring ⟨c :: cs, args⟩ l e) :
      Spells optstring ⟨[], (dash :: c :: cs) :: args⟩ l e
  | unknown {c : UInt8} {cs : Bytes} {args : List Bytes} (hk : kind optstring c = .unknown) :
      Spells optstring ⟨c :: cs, args⟩ [] (.bad c)
  | missing {c : UInt8} (hk : kind optstring c = .takesArg) : Spells optstring ⟨[c], []⟩ [] (.bad c)
  | flag {c : UInt8} {cs : Bytes} {args : List Bytes} {l : List Opt} {e : End}
      (hk : kind optstring c = .flag) (h : Spells optstring ⟨cs, args⟩ l e) :
      Spells optstring ⟨c :: cs, args⟩ (.flag c :: l) e
  | attached {c : UInt8} {optarg : Bytes} {args : List Bytes} {l : List Opt} {e : End}
      (hk : kind optstring c = .takesArg) (hne : optarg ≠ [])
      (h : Spells optstring ⟨[], args⟩ l e) :
      Spells optstring ⟨c :: optarg, args⟩ (.arg c optarg :: l) e
  | separate {c : UInt8} {optarg : Bytes} {args : List Bytes} {l : List Opt} {e : End}
      (hk : kind optstring c = .takesArg) (h : Spells optstring ⟨[], args⟩ l e) :
      Spells optstring ⟨[c], optarg :: args⟩ (.arg c optarg :: l) e

section

variable {optstring : Bytes} {s s' : Scan} {c : UInt8} {cs optarg : Bytes} {args : List Bytes}
variable {l : List Opt} {e : End} {o : Opt}

/-! ## One option -/

theorem scanOption_unknown (hk : kind optstring c = .unknown) :
    scanOption optstring c s = (.bad c, s) := by
  simp only [scanOption, hk]

theorem scanOption_flag (hk : kind optstring c = .flag) :
    scanOption optstring c s = (.option (.flag c), s) := by
  simp only [scanOption, hk]

theorem scanOption_attached (hk : kind optstring c = .takesArg) (hne : optarg ≠ []) :
    scanOption optstring c ⟨optarg, args⟩ = (.option (.arg c optarg), ⟨[], args⟩) := by
  simp only [scanOption, hk, if_pos hne]

theorem scanOption_separate (hk : kind optstring c = .takesArg) :
    scanOption optstring c ⟨[], optarg :: args⟩ = (.option (.arg c optarg), ⟨[], args⟩) := by
  simp only [scanOption, hk, ne_eq, not_true_eq_false, if_false]

theorem scanOption_missing (hk : kind optstring c = .takesArg) :
    scanOption optstring c ⟨[], []⟩ = (.bad c, ⟨[], []⟩) := by
  simp only [scanOption, hk, ne_eq, not_true_eq_false, if_false]

theorem getopt_cluster : getopt optstring ⟨c :: cs, args⟩ = scanOption optstring c ⟨cs, args⟩ := rfl

theorem getopt_word (hne : ¬ (c = dash ∧ cs = [])) :
    getopt optstring ⟨[], (dash :: c :: cs) :: args⟩ = getopt optstring ⟨c :: cs, args⟩ := by
  simp only [getopt, if_true, if_neg hne]

theorem getopt_stop (h : Stops args) : getopt optstring ⟨[], args⟩ = (.finished, ⟨[], args⟩) := by
  unfold Stops at h
  unfold getopt
  split at h
  · exact if_neg h
  · dsimp only

/-- What is behind an option is less. -/
theorem size_scanOption {f : Found} (h : scanOption optstring c s = (f, s')) :
    s'.size ≤ s.size := by
  unfold scanOption at h
  split at h
  · cases h
    exact Nat.le_refl _
  · cases h
    exact Nat.le_refl _
  · split at h
    · cases h
      exact Nat.add_le_add_right (Nat.zero_le _) _
    · split at h
      · cases h
        exact Nat.le_refl _
      · next optarg args hargs =>
        cases h
        simp only [Scan.size, hargs, wordsSize, List.length_nil]
        omega

theorem size_getopt (h : getopt optstring s = (.option o, s')) : s'.size < s.size := by
  obtain ⟨cluster, args⟩ := s
  unfold getopt at h
  split at h
  · next c cs hcluster =>
    change cluster = c :: cs at hcluster
    have hle := size_scanOption h
    subst hcluster
    simp only [Scan.size, List.length_cons] at hle ⊢
    omega
  · next hcluster =>
    change cluster = [] at hcluster
    subst hcluster
    split at h
    · next d c cs rest hargs =>
      change args = (d :: c :: cs) :: rest at hargs
      subst hargs
      split at h
      · split at h
        · cases h
        · have hle := size_scanOption h
          simp only [Scan.size, wordsSize, List.length_cons] at hle ⊢
          omega
      · cases h
    · cases h

/-! ## All options -/

/-- `getopt` returns the first option that is spelled. -/
theorem Spells.getopt_cons (h : Spells optstring s (o :: l) e) :
    ∃ s', getopt optstring s = (.option o, s') ∧ Spells optstring s' l e := by
  obtain ⟨l', hl'⟩ : ∃ l', l' = o :: l := ⟨_, rfl⟩
  rw [← hl'] at h
  induction h with
  | stop | dashes | unknown | missing => cases hl'
  | word hne _ ih =>
    obtain ⟨s', hget, hrest⟩ := ih hl'
    exact ⟨s', (getopt_word hne).trans hget, hrest⟩
  | flag hk h =>
    cases hl'
    exact ⟨_, scanOption_flag hk, h⟩
  | attached hk hne h =>
    cases hl'
    exact ⟨_, scanOption_attached hk hne, h⟩
  | separate hk h =>
    cases hl'
    exact ⟨_, scanOption_separate hk, h⟩

/-- Behind the last option that is spelled `getopt` returns how they end. -/
theorem Spells.getopt_nil (h : Spells optstring s [] e) :
    (getopt optstring s).1 = e.found := by
  obtain ⟨l, hl⟩ : ∃ l : List Opt, l = [] := ⟨_, rfl⟩
  rw [← hl] at h
  induction h with
  | stop h =>
    rw [getopt_stop h]
    rfl
  | dashes => rfl
  | word hne _ ih =>
    rw [getopt_word hne]
    exact ih hl
  | unknown hk =>
    rw [getopt_cluster, scanOption_unknown hk]
    rfl
  | missing hk =>
    rw [getopt_cluster, scanOption_missing hk]
    rfl
  | flag | attached | separate => cases hl

/-- An option in front. -/
theorem Spells.cons (hget : getopt optstring s = (.option o, s')) (h : Spells optstring s' l e) :
    Spells optstring s (o :: l) e := by
  have hscan : ∀ {c : UInt8} {t : Scan}, scanOption optstring c t = (.option o, s') →
      Spells optstring ⟨c :: t.cluster, t.args⟩ (o :: l) e := by
    intro c t hscan
    obtain ⟨cluster, args⟩ := t
    cases hk : kind optstring c with
    | unknown =>
      rw [scanOption_unknown hk] at hscan
      cases hscan
    | flag =>
      rw [scanOption_flag hk] at hscan
      cases hscan
      exact .flag hk h
    | takesArg =>
      cases cluster with
      | cons a cluster =>
        rw [scanOption_attached hk (List.cons_ne_nil _ _)] at hscan
        cases hscan
        exact .attached hk (List.cons_ne_nil _ _) h
      | nil =>
        cases args with
        | nil =>
          rw [scanOption_missing hk] at hscan
          cases hscan
        | cons optarg args =>
          rw [scanOption_separate hk] at hscan
          cases hscan
          exact .separate hk h
  obtain ⟨cluster, args⟩ := s
  cases cluster with
  | cons c cs => exact hscan hget
  | nil =>
    unfold getopt at hget
    dsimp only at hget
    split at hget
    · next d c cs rest =>
      split at hget
      · next hd =>
        subst hd
        split at hget
        · cases hget
        · next hne => exact .word hne (hscan hget)
      · cases hget
    · cases hget

/-- Where `getopt` finds no option, the options end. -/
theorem spells_nil (h : ∀ o s', getopt optstring s ≠ (.option o, s')) :
    ∃ e, Spells optstring s [] e := by
  have hscan : ∀ {c : UInt8} {t : Scan}, (∀ o s', scanOption optstring c t ≠ (.option o, s')) →
      ∃ e, Spells optstring ⟨c :: t.cluster, t.args⟩ [] e := by
    intro c t hscan
    obtain ⟨cluster, args⟩ := t
    cases hk : kind optstring c with
    | unknown => exact ⟨_, .unknown hk⟩
    | flag => exact absurd (scanOption_flag hk) (hscan _ _)
    | takesArg =>
      cases cluster with
      | cons a cluster =>
        exact absurd (scanOption_attached hk (List.cons_ne_nil _ _)) (hscan _ _)
      | nil =>
        cases args with
        | nil => exact ⟨_, .missing hk⟩
        | cons optarg args => exact absurd (scanOption_separate hk) (hscan _ _)
  obtain ⟨cluster, args⟩ := s
  cases cluster with
  | cons c cs => exact hscan h
  | nil =>
    match args, h with
    | (d :: c :: cs) :: args, h =>
      by_cases hd : d = dash
      · subst hd
        by_cases hdd : c = dash ∧ cs = []
        · obtain ⟨rfl, rfl⟩ := hdd
          exact ⟨_, .dashes⟩
        · rw [getopt_word hdd] at h
          obtain ⟨e, he⟩ := hscan h
          exact ⟨e, .word hdd he⟩
      · exact ⟨_, .stop hd⟩
    | [_] :: args, _ => exact ⟨_, .stop trivial⟩
    | [] :: args, _ => exact ⟨_, .stop trivial⟩
    | [], _ => exact ⟨_, .stop trivial⟩

/-- **Every command line spells options up to an end.** -/
theorem spells_exists (optstring : Bytes) (s : Scan) : ∃ l e, Spells optstring s l e := by
  obtain ⟨k, hk⟩ : ∃ k, s.size = k := ⟨_, rfl⟩
  induction k using Nat.strongRecOn generalizing s with
  | ind k ih =>
    by_cases h : ∃ o s', getopt optstring s = (.option o, s')
    · obtain ⟨o, s', hget⟩ := h
      obtain ⟨l, e, hl⟩ := ih s'.size (hk ▸ size_getopt hget) s' rfl
      exact ⟨o :: l, e, hl.cons hget⟩
    · obtain ⟨e, he⟩ := spells_nil fun o s' hget => h ⟨o, s', hget⟩
      exact ⟨[], e, he⟩

/-! ## Writing them -/

/-- The words of an option that shares none. -/
def Opt.words : Opt → List Bytes
  | .flag c => [[dash, c]]
  | .arg c optarg => [[dash, c], optarg]

/-- The option is one of `optstring`. -/
def Opt.Known (optstring : Bytes) : Opt → Prop
  | .flag c => kind optstring c = .flag ∧ c ≠ dash
  | .arg c _ => kind optstring c = .takesArg ∧ c ≠ dash

/-- Any options can be spelled. -/
theorem spells_words (h : ∀ o ∈ l, o.Known optstring) :
    Spells optstring ⟨[], l.flatMap Opt.words⟩ l (.stop []) := by
  induction l with
  | nil => exact .stop trivial
  | cons o l ih =>
    have hrest := ih fun o' ho' => h o' (List.mem_cons_of_mem _ ho')
    have hknown := h o List.mem_cons_self
    cases o with
    | flag c => exact .word (fun hc => hknown.2 hc.1) (.flag hknown.1 hrest)
    | arg c optarg => exact .word (fun hc => hknown.2 hc.1) (.separate hknown.1 hrest)

/-! ## Fewer options -/

/-- The byte of an option. -/
def Opt.char : Opt → UInt8
  | .flag c => c
  | .arg c _ => c

section

variable {optstring' : Bytes}

theorem scanOption_restrict (h : kind optstring' c = kind optstring c) :
    scanOption optstring' c s = scanOption optstring c s := by
  unfold scanOption
  rw [h]

/-- `getopt` either looks at one option, or the options are finished, whatever
options there are. -/
theorem getopt_cases (s : Scan) :
    (∃ c t, ∀ optstring, getopt optstring s = scanOption optstring c t) ∨
      ∃ t, ∀ optstring, getopt optstring s = (.finished, t) := by
  obtain ⟨cluster, args⟩ := s
  cases cluster with
  | cons c cs => exact .inl ⟨c, ⟨cs, args⟩, fun _ => rfl⟩
  | nil =>
    match args with
    | (d :: c :: cs) :: args =>
      by_cases hd : d = dash
      · subst hd
        by_cases hdd : c = dash ∧ cs = []
        · exact .inr ⟨⟨[], args⟩, fun _ => by simp only [getopt, if_true, if_pos hdd]⟩
        · exact .inl ⟨c, ⟨cs, args⟩, fun _ => getopt_word hdd⟩
      · exact .inr ⟨_, fun _ => getopt_stop hd⟩
    | [_] :: args => exact .inr ⟨_, fun _ => rfl⟩
    | [] :: args => exact .inr ⟨_, fun _ => rfl⟩
    | [] => exact .inr ⟨_, fun _ => rfl⟩

/-- The option that is found is the one that was looked at. -/
theorem char_scanOption (h : scanOption optstring c s = (.option o, s')) :
    o.char = c ∧ kind optstring c ≠ .unknown := by
  unfold scanOption at h
  split at h
  · cases h
  · next hk =>
    cases h
    rw [hk]
    exact ⟨rfl, nofun⟩
  · next hk =>
    rw [hk]
    split at h
    · cases h
      exact ⟨rfl, nofun⟩
    · split at h
      · cases h
      · cases h
        exact ⟨rfl, nofun⟩

/-- With fewer options allowed, `getopt` finds those of them that it found before. -/
theorem getopt_restrict
    (hsub : ∀ c, kind optstring' c ≠ .unknown → kind optstring' c = kind optstring c) :
    getopt optstring' s = (.option o, s') ↔
      getopt optstring s = (.option o, s') ∧ kind optstring' o.char ≠ .unknown := by
  rcases getopt_cases s with ⟨c, t, h⟩ | ⟨t, h⟩
  · rw [h, h]
    constructor
    · intro hget
      obtain ⟨hc, hk⟩ := char_scanOption hget
      rw [← scanOption_restrict (hsub c hk), hc]
      exact ⟨hget, hk⟩
    · intro hget
      obtain ⟨hget, hk⟩ := hget
      rw [(char_scanOption hget).1] at hk
      rw [scanOption_restrict (hsub c hk)]
      exact hget
  · rw [h, h]
    constructor
    · intro hget
      cases hget
    · intro hget
      cases hget.1

end

end

end FileStorage.Lib

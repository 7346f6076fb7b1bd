import Mathlib.Algebra.Order.Ring.Nat
import Mathlib.Data.List.Basic
import Mathlib.Logic.Function.Basic

/-!
# The Options of the Command Line

`getopt` and `getopt_long`, as the program has them for systems without. They walk through
`argv` with two cursors: `optind` is the next word, and `optcursor` points into it while a word
of several short options is being read. What a pointer points to can be read up to the NUL of
its word, and no further; what reads on is stuck (`none`).

The options that a command line means are stated apart from the cursors: `parse` goes through
the words, and `cluster` through the short options of a word.

## Main results

* `getopt_of_mid`: what one call takes of a word of short options.
* `reads_cluster`, `getopt_long_of_long`: a word is read to its end, or to its argument.
* `getopt_long_parses`: the calls never read behind a word or behind `argv`, come to an end, and
  return the options that the words mean.
-/

namespace Libsmu

namespace Getopt

/-- The end of a string. -/
def nul : Char := Char.ofNat 0

/-- A C string. -/
structure CString where
  text : List Char
  nul_notMem : nul ∉ text
  deriving DecidableEq

/-- The character at an offset, the NUL behind the text included. -/
def CString.deref (s : CString) (offset : ℕ) : Option Char := (s.text ++ [nul])[offset]?

/-- `strchr`: where a character is first. -/
def CString.strchr (s : CString) (c : Char) : Option ℕ := (s.text ++ [nul]).idxOf? c

/-- `strcspn`: how many characters come before the first `c`. -/
def CString.strcspn (s : CString) (c : Char) : ℕ := (s.text.takeWhile (· ≠ c)).length

/-- `strncmp(s, t, n) == 0`. -/
def strncmp (s t : CString) (n : ℕ) : Bool := (s.text ++ [nul]).take n = (t.text ++ [nul]).take n

/-- A pointer into a word of `argv`. -/
structure Ptr where
  word : ℕ
  offset : ℕ
  deriving DecidableEq

/-- `has_arg` of an option. -/
inductive HasArg
  | no_argument
  | required_argument
  | optional_argument
  deriving DecidableEq

/-- `struct option`; `flag` is the variable that it points to. The `int` `val` is a character, as in
the tables of programs: -1, which their loops take for the end, is none. -/
structure Opt where
  name : CString
  has_arg : HasArg
  flag : Option ℕ
  val : Char

/-- The globals, the variable that `longindex` points to, and those that flags point to. -/
structure State where
  optarg : Option Ptr
  optopt : Char
  optind : ℕ
  optcursor : Option Ptr
  longindex : ℕ
  flags : ℕ → Option Char

/-- At the start of the program. -/
def State.init : State where
  optarg := none
  optopt := nul
  optind := 1
  optcursor := none
  longindex := 0
  flags _ := none

section Code

variable (argv : List CString) (optstring : CString) (longopts : List Opt)

/-- `*p`. -/
def deref (p : Ptr) : Option Char := (argv[p.word]?).bind fun w => w.deref p.offset

/-- `++p`. -/
def Ptr.next (p : Ptr) : Ptr := { p with offset := p.offset + 1 }

/-- The label `no_more_optchars`; the result `none` is -1. -/
def State.no_more_optchars (s : State) : Option Char × State := (none, { s with optcursor := none })

/-- Where the next option character is. -/
def State.cursor (s : State) : Option Ptr :=
  match s.optcursor with
  | none => some ⟨s.optind, 1⟩
  | some p => (deref argv p).map fun c => if c = nul then ⟨s.optind, 1⟩ else p

/-- The end of `getopt`: `if (optcursor == NULL || *++optcursor == '\0') ++optind`. -/
def State.advance (s : State) (optchar : Char) : Option Ptr → Option (Option Char × State)
  | none => some (some optchar, { s with optcursor := none, optind := s.optind + 1 })
  | some p =>
      (deref argv p.next).map fun c =>
        (some optchar, { s with
          optcursor := some p.next
          optind := if c = nul then s.optind + 1 else s.optind })

/-- The argument of a short option that `optdecl` declares and `optcursor` points to. -/
def State.argument (s : State) (optchar : Char) (optdecl : ℕ) (optcursor : Ptr) :
    Option (Char × State) := do
  let c ← deref argv optcursor.next
  if c = nul then
    let c ← optstring.deref (optdecl + 2)
    if c ≠ ':' then
      if s.optind + 1 < argv.length then
        some (optchar, { s with optind := s.optind + 1, optarg := some ⟨s.optind + 1, 0⟩ })
      else do
        let c ← optstring.deref 0
        some (if c = ':' then ':' else '?', { s with optind := s.optind + 1, optarg := none })
    else some (optchar, { s with optarg := none })
  else some (optchar, { s with optarg := some optcursor.next })

/-- `getopt`. -/
def getopt (s : State) : Option (Option Char × State) :=
  let s := { s with optarg := none, optopt := nul }
  if argv.length ≤ s.optind then some s.no_more_optchars
  else do
    let w ← argv[s.optind]?
    let c ← w.deref 0
    if c ≠ '-' then some s.no_more_optchars
    else if w.text = ['-'] then some s.no_more_optchars
    else if w.text = ['-', '-'] then some { s with optind := s.optind + 1 }.no_more_optchars
    else do
      let optcursor ← s.cursor argv
      let optchar ← deref argv optcursor
      let s := { s with optopt := optchar }
      match optstring.strchr optchar with
      | some optdecl => do
          let c ← optstring.deref (optdecl + 1)
          if c = ':' then do
            let (optchar, s) ← s.argument argv optstring optchar optdecl optcursor
            s.advance argv optchar none
          else s.advance argv optchar (some optcursor)
      | none => s.advance argv '?' (some optcursor)

/-- The long options that begin with the name given, with their indices. -/
def matching (current_argument : CString) : List (ℕ × Opt) :=
  longopts.zipIdx.filterMap fun (o, i) =>
    if strncmp o.name current_argument (current_argument.strcspn '=') then some (i, o) else none

/-- The text behind the first `n` characters of a string is one. -/
def CString.drop (s : CString) (n : ℕ) : CString :=
  ⟨s.text.drop n, fun h => s.nul_notMem (List.mem_of_mem_drop h)⟩

/-- A long option that is the only match, in the word `w`. -/
def State.long (s : State) (w : CString) (i : ℕ) (o : Opt) : Option Char × State :=
  let s := { s with
    longindex := i
    flags := match o.flag with
      | some v => Function.update s.flags v (some o.val)
      | none => s.flags }
  let retval := if o.flag.isSome then nul else o.val
  let equals := (w.text.idxOf? '=').map fun k => (⟨s.optind, k + 1⟩ : Ptr)
  match o.has_arg with
  | .no_argument =>
      (some (if equals.isSome then '?' else retval), { s with optind := s.optind + 1 })
  | .optional_argument => (some retval, { s with optarg := equals, optind := s.optind + 1 })
  | .required_argument =>
      match equals with
      | some p => (some retval, { s with optarg := some p, optind := s.optind + 1 })
      | none =>
          if s.optind + 1 < argv.length then
            (some retval,
              { s with optarg := some ⟨s.optind + 1, 0⟩, optind := s.optind + 2 })
          else (some ':', { s with optind := s.optind + 2 })

/-- `getopt_long`. -/
def getopt_long (s : State) : Option (Option Char × State) :=
  let s := { s with optarg := none, optopt := nul }
  if argv.length ≤ s.optind then some (none, s)
  else do
    let w ← argv[s.optind]?
    if w.text.length < 3 ∨ w.text.take 2 ≠ ['-', '-'] then getopt argv optstring s
    else
      match matching longopts (w.drop 2) with
      | [(i, o)] => some (s.long argv w i o)
      | _ => some (some '?', { s with optind := s.optind + 1 })

/-- What an option is to the caller: the result, and the text of `optarg`. -/
abbrev Result : Type := Char × Option (List Char)

/-- The text that a pointer points to. -/
def Ptr.text (p : Ptr) : List Char := ((argv[p.word]?).map fun w => w.text.drop p.offset).getD []

/-- `while ((opt = getopt_long(...)) != -1)`, as many times at most. -/
def loop : ℕ → State → Option (List Result × State)
  | 0, _ => none
  | n + 1, s =>
      match getopt_long argv optstring longopts s with
      | some (some c, t) => (loop n t).map fun r => ((c, t.optarg.map (Ptr.text argv)) :: r.1, r.2)
      | some (none, t) => some ([], t)
      | none => none

end Code

/-! ### What the words mean -/

section Meaning

variable (optstring : CString) (longopts : List Opt)

/-- What a character in a word of short options is. -/
inductive Kind
  | unknown
  | flag
  | required
  | optional
  deriving DecidableEq

/-- `optstring` declares it. -/
def kind (c : Char) : Kind :=
  match optstring.strchr c with
  | none => .unknown
  | some d =>
      if optstring.deref (d + 1) = some ':' then
        if optstring.deref (d + 2) = some ':' then .optional else .required
      else .flag

/-- The result for an argument that is missing. -/
def missing : Char := if optstring.deref 0 = some ':' then ':' else '?'

/-- The options of the rest of a word of short options, and whether the next word is the argument
of the last one. -/
def cluster (next : Option (List Char)) : List Char → List Result × Bool
  | [] => ([], false)
  | c :: cs =>
      match kind optstring c with
      | .unknown => (('?', none) :: (cluster next cs).1, (cluster next cs).2)
      | .flag => ((c, none) :: (cluster next cs).1, (cluster next cs).2)
      | .optional => ([(c, if cs = [] then none else some cs)], false)
      | .required =>
          if cs = [] then
            match next with
            | some w => ([(c, some w)], true)
            | none => ([(missing optstring, none)], true)
          else ([(c, some cs)], false)

/-- The name in a long option, and its argument. -/
def split (body : List Char) : List Char × Option (List Char) :=
  (body.takeWhile (· ≠ '='), ((body.dropWhile (· ≠ '=')).tail?))

/-- A long option, and whether the next word is its argument. A name may be cut short, as long
as it is that of one option only. -/
def long (next : Option (List Char)) (body : List Char) : Result × Bool :=
  match longopts.filter fun o => (split body).1.isPrefixOf o.name.text with
  | [o] =>
      let retval := if o.flag.isSome then nul else o.val
      match o.has_arg, (split body).2 with
      | .no_argument, none => ((retval, none), false)
      | .no_argument, some _ => (('?', none), false)
      | .optional_argument, arg => ((retval, arg), false)
      | .required_argument, some arg => ((retval, some arg), false)
      | .required_argument, none =>
          match next with
          | some w => ((retval, some w), true)
          | none => ((':', none), true)
  | _ => (('?', none), false)

/-- The options of a word, if it is one of options. -/
def word (next : Option (List Char)) : List Char → Option (List Result × Bool)
  | '-' :: '-' :: c :: body =>
      some ([(long longopts next (c :: body)).1], (long longopts next (c :: body)).2)
  | '-' :: c :: cs => if c = '-' then none else some (cluster optstring next (c :: cs))
  | _ => none

/-- The options of a command line, up to the first word that is none or to `--`, and the words
behind them. -/
def parse : List (List Char) → List Result × List (List Char)
  | [] => ([], [])
  | w :: ws =>
      match word optstring longopts ws.head? w, ws with
      | some (rs, true), _ :: ws => (rs ++ (parse ws).1, (parse ws).2)
      | some (rs, true), [] => (rs, [])
      | some (rs, false), ws => (rs ++ (parse ws).1, (parse ws).2)
      | none, ws => if w = ['-', '-'] then ([], ws) else ([], w :: ws)

end Meaning

/-! ### A word of short options -/

section Calls

variable {argv : List CString} {optstring : CString} {longopts : List Opt} {s t : State}
  {w : CString} {c : Char} {cs : List Char} {ws : List (List Char)} {k : ℕ}


/-- Up to the NUL a string can be read. -/
theorem CString.exists_deref (hk : k ≤ w.text.length) : ∃ c, w.deref k = some c :=
  ⟨_, List.getElem?_eq_getElem (by simp only [List.length_append, List.length_singleton]; omega)⟩

theorem CString.deref_of_drop (hk : k ≤ w.text.length) (h : w.text.drop k = cs) :
    w.deref k = some (cs.head?.getD nul) := by
  subst h
  rw [CString.deref, List.head?_drop]
  rcases Nat.lt_or_ge k w.text.length with hlt | hge
  · rw [List.getElem?_append_left hlt, List.getElem?_eq_getElem hlt]
    rfl
  · rw [List.getElem?_append_right hge, List.getElem?_eq_none hge, Nat.sub_eq_zero_of_le hk]
    rfl

/-- A character that is not the NUL has one behind it. -/
theorem CString.lt_of_deref (h : w.deref k = some c) (hc : c ≠ nul) : k < w.text.length := by
  by_contra hge
  rw [CString.deref, List.getElem?_append_right (Nat.not_lt.mp hge)] at h
  exact hc (List.mem_singleton.mp (List.mem_of_getElem? h))

theorem CString.deref_of_strchr {d : ℕ} (h : w.strchr c = some d) : w.deref d = some c := by
  obtain ⟨hd, hc, -⟩ := List.idxOf?_eq_some_iff.mp h
  exact List.getElem?_eq_some_iff.mpr ⟨hd, hc⟩

theorem CString.ne_nul (h : w.text.drop k = c :: cs) : c ≠ nul := by
  rintro rfl
  exact w.nul_notMem (List.mem_of_mem_drop (h ▸ List.mem_cons_self))

/-- The cursors at the beginning of the words `ws`. -/
structure Start (argv : List CString) (s : State) (ws : List (List Char)) : Prop where
  words : (argv.drop s.optind).map CString.text = ws
  cursor : ∀ p, s.optcursor = some p → deref argv p = some nul

/-- The cursors in the word `w` of short options, with `cs` to come. -/
structure Mid (argv : List CString) (s : State) (w : CString) (cs : List Char) : Prop where
  word : argv[s.optind]? = some w
  short : ∃ c rest, w.text = '-' :: c :: rest ∧ c ≠ '-'
  cursor : ∃ k, s.cursor argv = some ⟨s.optind, k⟩ ∧ k ≤ w.text.length ∧ w.text.drop k = cs

/-- The state after an option character: it is behind it, in the word or at the next one. -/
def State.behind (s : State) (optchar : Char) (cs : List Char) (k : ℕ) : State :=
  { s with
    optarg := none
    optopt := optchar
    optcursor := some ⟨s.optind, k + 1⟩
    optind := if cs = [] then s.optind + 1 else s.optind }

/-- The state after an option with an argument, the last one of its word. -/
def State.took (s : State) (optchar : Char) (optarg : Option Ptr) (optind : ℕ) : State :=
  { s with optarg := optarg, optopt := optchar, optcursor := none, optind := optind }

theorem Mid.deref (h : Mid argv s w (c :: cs)) : ∃ k, s.cursor argv = some ⟨s.optind, k⟩ ∧
    w.text.drop k = c :: cs ∧ Getopt.deref argv ⟨s.optind, k⟩ = some c ∧
    k + 1 ≤ w.text.length ∧ w.text.drop (k + 1) = cs ∧
    Getopt.deref argv ⟨s.optind, k + 1⟩ = some (cs.head?.getD nul) := by
  obtain ⟨k, hcursor, hk, hdrop⟩ := h.cursor
  have hlt : k < w.text.length := by
    have hlen := congrArg List.length hdrop
    rw [List.length_drop, List.length_cons] at hlen
    omega
  have hnext : w.text.drop (k + 1) = cs := by
    rw [← List.tail_drop, hdrop, List.tail_cons]
  refine ⟨k, hcursor, hdrop, ?_, hlt, hnext, ?_⟩
  · rw [Getopt.deref, h.word, Option.bind_some, CString.deref_of_drop hk hdrop]
    rfl
  · rw [Getopt.deref, h.word, Option.bind_some, CString.deref_of_drop hlt hnext]

variable (optstring) in
/-- **What one call takes of a word of short options.** -/
theorem getopt_of_mid (h : Mid argv s w (c :: cs)) :
    ∃ k, k + 1 ≤ w.text.length ∧ w.text.drop (k + 1) = cs ∧
      getopt argv optstring s = some (match kind optstring c with
        | .unknown => (some '?', s.behind c cs k)
        | .flag => (some c, s.behind c cs k)
        | .optional =>
            (some c, s.took c (if cs = [] then none else some ⟨s.optind, k + 1⟩) (s.optind + 1))
        | .required =>
            if cs = [] then
              if s.optind + 1 < argv.length then
                (some c, s.took c (some ⟨s.optind + 1, 0⟩) (s.optind + 2))
              else (some (missing optstring), s.took c none (s.optind + 2))
            else (some c, s.took c (some ⟨s.optind, k + 1⟩) (s.optind + 1))) := by
  obtain ⟨k, hcursor, hdrop, hchar, hk, hnext, hchar'⟩ := h.deref
  obtain ⟨d, rest, hshort, hd⟩ := h.short
  refine ⟨k, hk, hnext, ?_⟩
  have hlt : s.optind < argv.length := (List.getElem?_eq_some_iff.mp h.word).1
  have hhead : w.deref 0 = some '-' := by rw [CString.deref, hshort]; rfl
  have hcursor' : ({ s with optarg := none, optopt := nul } : State).cursor argv =
      some ⟨s.optind, k⟩ := hcursor
  have hend : cs.head?.getD nul = nul ↔ cs = [] := by
    cases cs with
    | nil => simp
    | cons e es => simpa using CString.ne_nul hnext
  have hdash : '-' :: d :: rest ≠ ['-', '-'] := by
    intro heq
    exact hd (List.cons.inj (List.cons.inj heq).2).1
  rw [getopt, if_neg (by simpa using hlt)]
  simp only [h.word, hhead, hshort, hcursor', hchar, Option.bind_eq_bind, Option.bind_some, ne_eq,
    not_true_eq_false, if_false, hdash, List.cons.injEq, reduceCtorEq, and_false]
  rw [kind]
  have hc : c ≠ nul := CString.ne_nul hdrop
  cases hdecl : optstring.strchr c with
  | none =>
      simp only [State.advance, Ptr.next, hchar', Option.map_some, hend, State.behind]
  | some decl =>
      have hfound := CString.deref_of_strchr hdecl
      have hdecllt := CString.lt_of_deref hfound hc
      obtain ⟨e, he⟩ := CString.exists_deref hdecllt
      by_cases hcolon : e = ':'
      · subst hcolon
        obtain ⟨f, hf⟩ := CString.exists_deref (CString.lt_of_deref he (by decide))
        obtain ⟨g, hg⟩ := optstring.exists_deref (Nat.zero_le _)
        simp only [he, Option.bind_some, if_true, State.argument, Ptr.next, hchar', hend, hf, hg,
          Option.some.injEq, Option.bind_eq_bind, State.took]
        by_cases hnil : cs = []
        · by_cases hoptional : f = ':'
          · simp [hnil, hoptional, State.advance]
          · by_cases hargc : s.optind + 1 < argv.length
            · simp [hnil, hoptional, hargc, State.advance]
            · simp [hnil, hoptional, hargc, State.advance, missing, hg]
        · by_cases hoptional : f = ':' <;> simp [hnil, hoptional, State.advance]
      · simp only [he, Option.bind_some, hcolon, if_false, State.advance, Ptr.next, hchar',
          Option.map_some, hend, State.behind, Option.some.injEq]

/-- The calls that return an option each, with the results. -/
inductive Reads (argv : List CString) (optstring : CString) (longopts : List Opt) :
    State → List Result → State → Prop
  | nil (s : State) : Reads argv optstring longopts s [] s
  | cons {s t u : State} {c : Char} {rs : List Result}
      (h : getopt_long argv optstring longopts s = some (some c, t))
      (hrest : Reads argv optstring longopts t rs u) :
      Reads argv optstring longopts s ((c, t.optarg.map (Ptr.text argv)) :: rs) u

theorem Reads.append {u : State} {rs rs' : List Result}
    (h : Reads argv optstring longopts s rs t) (h' : Reads argv optstring longopts t rs' u) :
    Reads argv optstring longopts s (rs ++ rs') u := by
  induction h with
  | nil s => exact h'
  | cons hcall hrest ih => exact .cons hcall (ih h')

/-- A word of short options is left to `getopt`. -/
theorem getopt_long_of_mid (h : Mid argv s w cs) :
    getopt_long argv optstring longopts s = getopt argv optstring s := by
  obtain ⟨d, rest, hshort, hd⟩ := h.short
  have hlt : s.optind < argv.length := (List.getElem?_eq_some_iff.mp h.word).1
  have hword : ({ s with optarg := none, optopt := nul } : State).optind = s.optind := rfl
  rw [getopt_long, if_neg (by simpa using hlt)]
  simp only [h.word, Option.bind_eq_bind, Option.bind_some]
  rw [if_pos (.inr (by simp [hshort, hd]))]
  rfl

/-- Behind an option character the cursors are in the word, or at the next one. -/
theorem Mid.behind (h : Mid argv s w (c :: cs)) (hk : k + 1 ≤ w.text.length)
    (hdrop : w.text.drop (k + 1) = cs) (hws : (argv.drop (s.optind + 1)).map CString.text = ws) :
    if cs = [] then Start argv (s.behind c cs k) ws
    else Mid argv (s.behind c cs k) w cs ∧ (s.behind c cs k).optind = s.optind := by
  have hchar : Getopt.deref argv ⟨s.optind, k + 1⟩ = some (cs.head?.getD nul) := by
    rw [Getopt.deref, h.word, Option.bind_some, CString.deref_of_drop hk hdrop]
  split
  · rename_i hnil
    subst hnil
    refine ⟨hws, fun p hp => ?_⟩
    rw [← Option.some.inj hp]
    exact hchar
  · rename_i hne
    obtain ⟨e, es, rfl⟩ := List.exists_cons_of_ne_nil hne
    refine ⟨⟨h.word, h.short, k + 1, ?_, hk, hdrop⟩, rfl⟩
    simp only [State.cursor, State.behind, hchar, Option.map_some, List.head?_cons,
      Option.getD_some, if_neg (CString.ne_nul hdrop), reduceCtorEq, if_false]

theorem start_took (optchar : Char) (optarg : Option Ptr) {i : ℕ}
    (hws : (argv.drop i).map CString.text = ws) : Start argv (s.took optchar optarg i) ws :=
  ⟨hws, fun _ hp => nomatch hp⟩

/-- The next word, as the argument of an option. -/
theorem head?_words {i : ℕ} (hws : (argv.drop i).map CString.text = ws) :
    ws.head? = if i < argv.length then some (Ptr.text argv ⟨i, 0⟩) else none := by
  rw [← hws, List.head?_map, List.head?_drop]
  split
  · rename_i hlt
    rw [Ptr.text, List.getElem?_eq_getElem hlt]
    rfl
  · rename_i hge
    rw [List.getElem?_eq_none (Nat.not_lt.mp hge)]
    rfl

/-- **A word of short options is read** to its end, or to the argument of its last option. -/
theorem reads_cluster (h : Mid argv s w cs) (hne : cs ≠ [])
    (hws : (argv.drop (s.optind + 1)).map CString.text = ws) :
    ∃ t, Reads argv optstring longopts s (cluster optstring ws.head? cs).1 t ∧
      Start argv t (if (cluster optstring ws.head? cs).2 then ws.tail else ws) := by
  induction cs generalizing s with
  | nil => exact absurd rfl hne
  | cons c cs ih =>
      have hlong : getopt_long argv optstring longopts s = getopt argv optstring s :=
        getopt_long_of_mid h
      obtain ⟨k, hk, hdrop, hcall⟩ := getopt_of_mid optstring h
      rw [← hlong] at hcall
      have hbehind := h.behind hk hdrop hws
      -- the word goes on, unless it is at its end
      have hgoes : ∃ t, Reads argv optstring longopts (s.behind c cs k)
          (cluster optstring ws.head? cs).1 t ∧
          Start argv t (if (cluster optstring ws.head? cs).2 then ws.tail else ws) := by
        by_cases hnil : cs = []
        · rw [if_pos hnil] at hbehind
          rw [hnil] at hbehind ⊢
          exact ⟨_, .nil _, hbehind⟩
        · rw [if_neg hnil] at hbehind
          exact ih hbehind.1 hnil (by rw [hbehind.2]; exact hws)
      have htext : Ptr.text argv ⟨s.optind, k + 1⟩ = cs := by
        rw [Ptr.text, h.word, Option.map_some, Option.getD_some, hdrop]
      cases hkind : kind optstring c with
      | unknown | flag =>
          simp only [hkind] at hcall
          simp only [cluster, hkind]
          obtain ⟨t, hreads, hstart⟩ := hgoes
          exact ⟨t, .cons hcall hreads, hstart⟩
      | optional =>
          simp only [hkind] at hcall
          simp only [cluster, hkind]
          refine ⟨s.took c (if cs = [] then none else some ⟨s.optind, k + 1⟩) (s.optind + 1), ?_,
            start_took _ _ hws⟩
          have hread := Reads.cons hcall (.nil _)
          by_cases hnil : cs = []
          · simpa [hnil, State.took] using hread
          · simpa [hnil, State.took, htext] using hread
      | required =>
          simp only [hkind] at hcall
          simp only [cluster, hkind]
          by_cases hnil : cs = []
          · -- the next word is the argument
            simp only [hnil, if_true] at hcall ⊢
            have htail : (argv.drop (s.optind + 2)).map CString.text = ws.tail := by
              rw [← hws, ← List.map_tail, List.tail_drop]
            have hhead := head?_words hws
            by_cases hargc : s.optind + 1 < argv.length
            · rw [if_pos hargc] at hcall hhead
              have hread := Reads.cons hcall (.nil _)
              simp only [hhead]
              exact ⟨_, hread, start_took _ _ htail⟩
            · rw [if_neg hargc] at hcall hhead
              have hread := Reads.cons hcall (.nil _)
              simp only [hhead]
              exact ⟨_, hread, start_took _ _ htail⟩
          · simp only [hnil, if_false] at hcall ⊢
            refine ⟨s.took c (some ⟨s.optind, k + 1⟩) (s.optind + 1), ?_, start_took _ _ hws⟩
            have hread := Reads.cons hcall (.nil _)
            simpa [State.took, htext] using hread

/-! ### A long option -/

/-- A name is compared as far as the argument has it. -/
theorem strncmp_eq (name cur : CString) :
    strncmp name cur (cur.strcspn '=') = (split cur.text).1.isPrefixOf name.text := by
  have hle : cur.strcspn '=' ≤ cur.text.length := (List.takeWhile_sublist _).length_le
  have htake : (cur.text ++ [nul]).take (cur.strcspn '=') = (split cur.text).1 := by
    rw [List.take_append_of_le_length hle, CString.strcspn, split]
    exact (List.prefix_iff_eq_take.mp (List.takeWhile_prefix _)).symm
  rw [strncmp, htake, Bool.eq_iff_iff, decide_eq_true_iff, List.isPrefixOf_iff_prefix]
  have hlen : (split cur.text).1.length = cur.strcspn '=' := rfl
  constructor
  · intro h
    rcases Nat.lt_or_ge name.text.length (cur.strcspn '=') with hlt | hge
    · -- the NUL of the name is not in the argument
      refine absurd ?_ cur.nul_notMem
      refine (List.takeWhile_prefix _).subset (?_ : nul ∈ (split cur.text).1)
      rw [← h, List.take_of_length_le
        (by simp only [List.length_append, List.length_singleton]; omega)]
      simp
    · rw [List.take_append_of_le_length hge] at h
      rw [← h]
      exact List.take_prefix _ _
  · intro h
    rw [List.take_append_of_le_length (hlen ▸ h.length_le), ← hlen]
    exact (List.prefix_iff_eq_take.mp h).symm

theorem map_snd_matching (cur : CString) :
    (matching longopts cur).map Prod.snd =
      longopts.filter fun o => (split cur.text).1.isPrefixOf o.name.text := by
  have hgen : ∀ k : ℕ, ((longopts.zipIdx k).filterMap fun (o, i) =>
      if strncmp o.name cur (cur.strcspn '=') then some (i, o) else none).map Prod.snd =
        longopts.filter fun o => (split cur.text).1.isPrefixOf o.name.text := by
    induction longopts with
    | nil => exact fun _ => rfl
    | cons o os ih =>
        intro k
        rw [List.zipIdx_cons, List.filterMap_cons, List.filter_cons, ← strncmp_eq, ← ih (k + 1)]
        cases hcmp : strncmp o.name cur (cur.strcspn '=') <;> simp [hcmp]
  exact hgen 0

/-- Behind the first `a`. -/
theorem map_idxOf?_drop {β : Type*} [DecidableEq β] (a : β) (xs : List β) :
    (xs.idxOf? a).map (fun k => xs.drop (k + 1)) = (xs.dropWhile (· ≠ a)).tail? := by
  induction xs with
  | nil => rfl
  | cons x xs ih =>
      rw [List.idxOf?_cons]
      by_cases hx : x = a
      · simp [hx]
      · simp only [beq_iff_eq, hx, if_false, Option.map_map, ne_eq, not_false_eq_true,
          decide_true, List.dropWhile_cons_of_pos]
        rw [← ih]
        rfl

/-- **A long option is read**, with its argument. -/
theorem getopt_long_of_long {d : Char} {body : List Char} (hw : argv[s.optind]? = some w)
    (hlong : w.text = '-' :: '-' :: d :: body)
    (hcursor : ∀ p, s.optcursor = some p → deref argv p = some nul)
    (hws : (argv.drop (s.optind + 1)).map CString.text = ws) :
    ∃ t, Reads argv optstring longopts s [(long longopts ws.head? (d :: body)).1] t ∧
      Start argv t (if (long longopts ws.head? (d :: body)).2 then ws.tail else ws) := by
  have hlt : s.optind < argv.length := (List.getElem?_eq_some_iff.mp hw).1
  have hshape : ¬(w.text.length < 3 ∨ w.text.take 2 ≠ ['-', '-']) := by
    simp [hlong]
  have hcall : getopt_long argv optstring longopts s =
      match matching longopts (w.drop 2) with
      | [(i, o)] => some (({ s with optarg := none, optopt := nul } : State).long argv w i o)
      | _ => some (some '?', { s with optarg := none, optopt := nul, optind := s.optind + 1 }) := by
    rw [getopt_long, if_neg (by simpa using hlt)]
    simp only [hw, Option.bind_eq_bind, Option.bind_some]
    rw [if_neg hshape]
  have hbody : (w.drop 2).text = d :: body := by
    change w.text.drop 2 = _
    rw [hlong]
    rfl
  have hfilter : (matching longopts (w.drop 2)).map Prod.snd =
      longopts.filter fun o => (split (w.drop 2).text).1.isPrefixOf o.name.text :=
    map_snd_matching (w.drop 2)
  rw [hbody] at hfilter
  -- the argument behind the sign
  have hequals : (w.text.idxOf? '=').map (fun k => w.text.drop (k + 1)) =
      (split (d :: body)).2 := by
    rw [map_idxOf?_drop, hlong]
    rfl
  have htail : (argv.drop (s.optind + 2)).map CString.text = ws.tail := by
    rw [← hws, ← List.map_tail, List.tail_drop]
  have htext : ∀ k, Ptr.text argv ⟨s.optind, k⟩ = w.text.drop k := fun k => by
    rw [Ptr.text, hw, Option.map_some, Option.getD_some]
  rw [long, ← hfilter]
  rcases hmatch : matching longopts (w.drop 2) with - | ⟨⟨i, o⟩, - | ⟨x, ms⟩⟩
  · rw [hmatch] at hcall
    exact ⟨_, .cons hcall (.nil _), ⟨hws, hcursor⟩⟩
  · rw [hmatch] at hcall
    simp only [List.map_cons, List.map_nil, ← hequals]
    cases harg : o.has_arg with
    | no_argument =>
        cases hidx : w.text.idxOf? '=' with
        | none | some k =>
            simp only [State.long, harg, hidx, Option.map_none, Option.map_some,
              Option.isSome_none, Option.isSome_some, if_true, Bool.false_eq_true,
              if_false] at hcall
            exact ⟨_, .cons hcall (.nil _), ⟨hws, hcursor⟩⟩
    | optional_argument =>
        simp only [State.long, harg] at hcall
        have hread := Reads.cons hcall (.nil _)
        rw [Option.map_map, show (Ptr.text argv ∘ fun k => (⟨s.optind, k + 1⟩ : Ptr)) =
          fun k => w.text.drop (k + 1) from funext fun k => htext _] at hread
        exact ⟨_, hread, ⟨hws, hcursor⟩⟩
    | required_argument =>
        cases hidx : w.text.idxOf? '=' with
        | some k =>
            simp only [State.long, harg, hidx, Option.map_some] at hcall
            have hread := Reads.cons hcall (.nil _)
            rw [Option.map_some, htext] at hread
            exact ⟨_, hread, ⟨hws, hcursor⟩⟩
        | none =>
            simp only [State.long, harg, hidx, Option.map_none] at hcall ⊢
            have hhead := head?_words hws
            by_cases hargc : s.optind + 1 < argv.length
            · rw [if_pos hargc] at hcall hhead
              simp only [hhead]
              exact ⟨_, .cons hcall (.nil _), ⟨htail, hcursor⟩⟩
            · rw [if_neg hargc] at hcall hhead
              simp only [hhead]
              exact ⟨_, .cons hcall (.nil _), ⟨htail, hcursor⟩⟩
  · rw [hmatch] at hcall
    exact ⟨_, .cons hcall (.nil _), ⟨hws, hcursor⟩⟩

/-! ### The command line -/

/-- At the beginning of a word. -/
theorem Start.words_cons {v : List Char} (h : Start argv s (v :: ws)) :
    ∃ w, argv[s.optind]? = some w ∧ w.text = v ∧
      (argv.drop (s.optind + 1)).map CString.text = ws := by
  obtain ⟨hwords, -⟩ := h
  obtain ⟨w, rest, hdrop, htext, hrest⟩ := List.map_eq_cons_iff.mp hwords
  refine ⟨w, ?_, htext, ?_⟩
  · rw [← List.head?_drop, hdrop]
    rfl
  · rw [← List.tail_drop, hdrop, ← hrest]
    rfl

/-- **A word of options is read.** -/
theorem reads_word {v : List Char} {rs : List Result} {b : Bool} (h : Start argv s (v :: ws))
    (hword : word optstring longopts ws.head? v = some (rs, b)) :
    ∃ t, Reads argv optstring longopts s rs t ∧ Start argv t (if b then ws.tail else ws) := by
  obtain ⟨w, hw, hv, hws⟩ := h.words_cons
  rw [word.eq_def] at hword
  split at hword
  · rename_i c body
    obtain ⟨rfl, rfl⟩ := Prod.mk.inj (Option.some.inj hword)
    exact getopt_long_of_long hw hv h.cursor hws
  · rename_i c cs _
    split at hword
    · cases hword
    · rename_i hc
      have hcluster := Option.some.inj hword
      have hmid : Mid argv s w (c :: cs) := by
        refine ⟨hw, ⟨c, cs, hv, hc⟩, 1, ?_, by rw [hv]; simp, by rw [hv]; rfl⟩
        rw [State.cursor]
        cases hcursor : s.optcursor with
        | none => rfl
        | some p => simp only [h.cursor p hcursor, Option.map_some, if_true]
      have hreads : ∃ t, Reads argv optstring longopts s
            (cluster optstring ws.head? (c :: cs)).1 t ∧
          Start argv t (if (cluster optstring ws.head? (c :: cs)).2 then ws.tail else ws) :=
        reads_cluster hmid (List.cons_ne_nil _ _) hws
      rwa [hcluster] at hreads
  · cases hword

/-- A word that is not one of options. -/
theorem of_word_eq_none {next : Option (List Char)} {v : List Char}
    (h : word optstring longopts next v = none) :
    v.head? ≠ some '-' ∨ v = ['-'] ∨ v = ['-', '-'] := by
  rcases v with - | ⟨c, - | ⟨d, cs⟩⟩
  · exact .inl (by simp)
  · by_cases hc : c = '-'
    · exact .inr (.inl (by rw [hc]))
    · exact .inl (by simpa using hc)
  · by_cases hc : c = '-'
    · subst hc
      by_cases hd : d = '-'
      · subst hd
        cases cs with
        | nil => exact .inr (.inr rfl)
        | cons e es => cases h
      · rw [word.eq_def] at h
        split at h
        · cases h
        · rename_i heq
          obtain ⟨rfl, rfl⟩ := List.cons.inj (List.cons.inj heq).2
          rw [if_neg hd] at h
          cases h
        · rename_i hne
          exact absurd rfl (hne d cs)
    · exact .inl (by simpa using hc)

/-- At such a word `getopt` stops, behind `--` and before any other. -/
theorem getopt_of_end (hw : argv[s.optind]? = some w)
    (hend : w.text.head? ≠ some '-' ∨ w.text = ['-'] ∨ w.text = ['-', '-']) :
    getopt argv optstring s = some (none, { s with
      optarg := none
      optopt := nul
      optcursor := none
      optind := if w.text = ['-', '-'] then s.optind + 1 else s.optind }) := by
  have hlt : s.optind < argv.length := (List.getElem?_eq_some_iff.mp hw).1
  have hhead : w.deref 0 = some (w.text.head?.getD nul) :=
    CString.deref_of_drop (Nat.zero_le _) List.drop_zero
  rw [getopt, if_neg (by simpa using hlt)]
  simp only [hw, hhead, Option.bind_eq_bind, Option.bind_some]
  rcases hend with hoperand | hdash | hdashes
  · have hchar : w.text.head?.getD nul ≠ '-' := by
      cases hchar : w.text.head? with
      | none => decide
      | some c => exact fun hc => hoperand (by rw [hchar, ← hc]; rfl)
    have hne : w.text ≠ ['-', '-'] := by
      intro heq
      exact hoperand (by rw [heq]; rfl)
    rw [if_pos hchar, if_neg hne]
    rfl
  · rw [hdash]
    rfl
  · rw [hdashes]
    rfl

/-- **The options end** with the words, at a word that is none, or behind `--`. -/
theorem getopt_long_of_end (h : Start argv s ws)
    (hend : ∀ v vs, ws = v :: vs → word optstring longopts vs.head? v = none) :
    ∃ t, getopt_long argv optstring longopts s = some (none, t) ∧
      (argv.drop t.optind).map CString.text = (parse optstring longopts ws).2 ∧
      (parse optstring longopts ws).1 = [] := by
  cases ws with
  | nil =>
      have hle : argv.length ≤ s.optind := by
        simpa using h.words
      refine ⟨{ s with optarg := none, optopt := nul }, ?_, h.words, rfl⟩
      rw [getopt_long, if_pos hle]
  | cons v vs =>
      have hnone := hend v vs rfl
      obtain ⟨w, hw, rfl, hws⟩ := h.words_cons
      have hlt : s.optind < argv.length := (List.getElem?_eq_some_iff.mp hw).1
      have hstop := of_word_eq_none hnone
      have hshape : w.text.length < 3 ∨ w.text.take 2 ≠ ['-', '-'] := by
        rcases hstop with hoperand | hdash | hdashes
        · refine .inr fun htake => hoperand ?_
          have htake' := congrArg List.head? htake
          rwa [List.head?_take, if_neg (by decide)] at htake'
        · exact .inl (by rw [hdash]; decide)
        · exact .inl (by rw [hdashes]; decide)
      have hcall : getopt_long argv optstring longopts s = getopt argv optstring s := by
        rw [getopt_long, if_neg (by simpa using hlt)]
        simp only [hw, Option.bind_eq_bind, Option.bind_some]
        rw [if_pos hshape]
        rfl
      refine ⟨_, hcall.trans (getopt_of_end hw hstop), ?_, ?_⟩
      · simp only [parse, hnone]
        split
        · exact hws
        · exact h.words
      · simp only [parse, hnone]
        split <;> rfl

theorem parse_cons {v : List Char} {rs : List Result} {b : Bool}
    (hword : word optstring longopts ws.head? v = some (rs, b)) :
    parse optstring longopts (v :: ws) =
      (rs ++ (parse optstring longopts (if b then ws.tail else ws)).1,
        (parse optstring longopts (if b then ws.tail else ws)).2) := by
  rw [parse.eq_def]
  cases b with
  | false => simp only [hword, Bool.false_eq_true, if_false]
  | true =>
      cases ws with
      | nil =>
          simp only [hword, if_true, List.tail_nil]
          rw [parse, List.append_nil]
      | cons u us => simp only [hword, if_true, List.tail_cons]

/-- The results of the words, one word after the other. -/
theorem reads_parse (h : Start argv s ws) :
    ∃ t u, Reads argv optstring longopts s (parse optstring longopts ws).1 t ∧
      getopt_long argv optstring longopts t = some (none, u) ∧
      (argv.drop u.optind).map CString.text = (parse optstring longopts ws).2 := by
  induction hlen : ws.length using Nat.strongRecOn generalizing s ws with
  | _ n ih =>
      by_cases hend : ∀ v vs, ws = v :: vs → word optstring longopts vs.head? v = none
      · obtain ⟨u, hu, hrest, hnil⟩ := getopt_long_of_end h hend
        exact ⟨s, u, hnil ▸ .nil s, hu, hrest⟩
      · simp only [not_forall] at hend
        obtain ⟨v, vs, rfl, hword⟩ := hend
        obtain ⟨⟨rs, b⟩, hword⟩ := Option.ne_none_iff_exists'.mp hword
        obtain ⟨t, hreads, hstart⟩ := reads_word h hword
        have hshort : (if b then vs.tail else vs).length < n := by
          rw [← hlen, List.length_cons]
          cases b with
          | false => exact Nat.lt_succ_self _
          | true => simp only [if_true, List.length_tail]; omega
        obtain ⟨t', u, hreads', hu, hrest⟩ := ih _ hshort hstart rfl
        rw [parse_cons hword]
        exact ⟨t', u, hreads.append hreads', hu, hrest⟩

theorem loop_of_reads {u : State} {rs : List Result} (h : Reads argv optstring longopts s rs t)
    (hend : getopt_long argv optstring longopts t = some (none, u)) {n : ℕ} (hn : rs.length < n) :
    loop argv optstring longopts n s = some (rs, u) := by
  induction h generalizing n with
  | nil s =>
      obtain ⟨n, rfl⟩ := Nat.exists_eq_succ_of_ne_zero (Nat.ne_of_gt hn)
      rw [loop, hend]
  | cons hcall hrest ih =>
      obtain ⟨n, rfl⟩ := Nat.exists_eq_succ_of_ne_zero (Nat.ne_of_gt (Nat.lt_of_le_of_lt
        (Nat.zero_le _) hn))
      rw [loop, hcall]
      simp only [ih hend (Nat.lt_of_succ_lt_succ hn), Option.map_some]

theorem length_cluster_le (next : Option (List Char)) (cs : List Char) :
    (cluster optstring next cs).1.length ≤ cs.length := by
  induction cs with
  | nil => exact Nat.le_refl 0
  | cons c cs ih =>
      rw [cluster.eq_def]
      simp only
      split
      · exact Nat.succ_le_succ ih
      · exact Nat.succ_le_succ ih
      · exact Nat.succ_le_succ (Nat.zero_le _)
      · split
        · split <;> exact Nat.succ_le_succ (Nat.zero_le _)
        · exact Nat.succ_le_succ (Nat.zero_le _)

theorem length_word_le {next : Option (List Char)} {v : List Char} {rs : List Result} {b : Bool}
    (h : word optstring longopts next v = some (rs, b)) : rs.length ≤ v.length := by
  rw [word.eq_def] at h
  split at h
  · obtain ⟨rfl, rfl⟩ := Prod.mk.inj (Option.some.inj h)
    exact Nat.succ_le_succ (Nat.zero_le _)
  · rename_i c cs _
    split at h
    · cases h
    · have hle : (cluster optstring next (c :: cs)).1.length ≤ (c :: cs).length :=
        length_cluster_le next (c :: cs)
      rw [Option.some.inj h] at hle
      exact Nat.le_succ_of_le hle
  · cases h

/-- Each option takes a character of the words at least. -/
theorem length_parse_le :
    (parse optstring longopts ws).1.length ≤ (ws.map List.length).sum := by
  induction hlen : ws.length using Nat.strongRecOn generalizing ws with
  | _ n ih =>
      rcases ws with - | ⟨v, vs⟩
      · exact Nat.le_refl 0
      · cases hword : word optstring longopts vs.head? v with
        | none =>
            simp only [parse, hword]
            split <;> exact Nat.zero_le _
        | some r =>
            obtain ⟨rs, b⟩ := r
            have hv := length_word_le hword
            rw [parse_cons hword, List.length_append, List.map_cons, List.sum_cons]
            refine Nat.add_le_add hv ?_
            rw [List.length_cons] at hlen
            cases b with
            | false => exact ih _ (by rw [← hlen]; exact Nat.lt_succ_self _) rfl
            | true =>
                have hshort : vs.tail.length < n := by
                  rw [← hlen, List.length_tail]
                  omega
                refine Nat.le_trans (ih _ hshort rfl) ?_
                cases vs with
                | nil => exact Nat.le_refl 0
                | cons u us => exact Nat.le_add_left _ _

variable (argv optstring longopts) in
/-- **`getopt_long` reads what the words mean.** Whatever the command line, the calls read no
character behind a word and no word behind `argv`, and come to an end, after no more of them
than there are characters. The options returned, and the words left, are those that `parse`
finds. -/
theorem getopt_long_parses :
    ∃ t, loop argv optstring longopts (((argv.drop 1).map (·.text.length)).sum + 1) .init =
        some ((parse optstring longopts ((argv.drop 1).map CString.text)).1, t) ∧
      (argv.drop t.optind).map CString.text =
        (parse optstring longopts ((argv.drop 1).map CString.text)).2 := by
  have hstart : Start argv .init ((argv.drop 1).map CString.text) := ⟨rfl, fun p hp => nomatch hp⟩
  have hreads : ∃ t u, Reads argv optstring longopts .init
      (parse optstring longopts ((argv.drop 1).map CString.text)).1 t ∧
      getopt_long argv optstring longopts t = some (none, u) ∧
      (argv.drop u.optind).map CString.text =
        (parse optstring longopts ((argv.drop 1).map CString.text)).2 := reads_parse hstart
  obtain ⟨t, u, hreads, hu, hrest⟩ := hreads
  have hle : (parse optstring longopts ((argv.drop 1).map CString.text)).1.length ≤
      (((argv.drop 1).map CString.text).map List.length).sum := length_parse_le
  rw [List.map_map] at hle
  exact ⟨u, loop_of_reads hreads hu (Nat.lt_succ_of_le hle), hrest⟩

end Calls

end Getopt

end Libsmu

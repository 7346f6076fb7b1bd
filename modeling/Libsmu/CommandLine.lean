import Libsmu.Getopt
import Mathlib.Data.List.TakeWhile

/-!
# The Command Line of smu

The program goes through the options of its command line (`Getopt`) and performs the command of
each as it comes, until one fails. How an option can be written is a format of its own: flags in
one word, arguments in the word of their option or in the next one, long names cut short
(`Form`).

## Main results

* `parse_render`: what is written in these forms is read as it was meant.
* `getopt_long_renders`: so it is by `getopt_long`.
* `main_performs`: the program performs the commands of its options, ends if they return, and hands
  `NULL` for a file to none of them.
-/

namespace Libsmu

namespace Getopt

/-- The string of a text, up to its first NUL. -/
def ofText (text : List Char) : CString where
  text := text.takeWhile (· ≠ nul)
  nul_notMem h := by simpa using List.mem_takeWhile_imp h

/-! ### The forms of options -/

/-- The ways to write options. -/
inductive Form
  /-- flags in one word, `-abc` -/
  | flags (c : Char) (cs : List Char)
  /-- flags and an option with its argument in one word, `-abwfile` or `-wfile` -/
  | attached (cs : List Char) (c : Char) (arg : List Char)
  /-- the argument in the next word, `-abw file` -/
  | separate (cs : List Char) (c : Char) (arg : List Char)
  /-- `--name` -/
  | long (name : List Char)
  /-- `--name=file` -/
  | longAttached (name arg : List Char)
  /-- `--name file` -/
  | longSeparate (name arg : List Char)

/-- The words. -/
def Form.render : Form → List (List Char)
  | .flags c cs => [['-'] ++ c :: cs]
  | .attached cs c arg => [['-'] ++ cs ++ c :: arg]
  | .separate cs c arg => [['-'] ++ cs ++ [c], arg]
  | .long name => [['-', '-'] ++ name]
  | .longAttached name arg => [['-', '-'] ++ name ++ '=' :: arg]
  | .longSeparate name arg => [['-', '-'] ++ name, arg]

section Forms

variable (optstring : CString) (longopts : List Opt)

/-- The option that a long name, or the beginning of one, is for. -/
def resolve (name : List Char) : Option Opt :=
  match longopts.filter fun o => name.isPrefixOf o.name.text with
  | [o] => some o
  | _ => none

/-- What a long option returns. -/
def Opt.retval (o : Opt) : Char := if o.flag.isSome then nul else o.val

/-- The options meant. -/
def Form.meaning : Form → List Result
  | .flags c cs => (c :: cs).map fun c => (c, none)
  | .attached cs c arg => cs.map (fun c => (c, none)) ++ [(c, some arg)]
  | .separate cs c arg => cs.map (fun c => (c, none)) ++ [(c, some arg)]
  | .long name => ((resolve longopts name).map fun o => (o.retval, none)).toList
  | .longAttached name arg => ((resolve longopts name).map fun o => (o.retval, some arg)).toList
  | .longSeparate name arg => ((resolve longopts name).map fun o => (o.retval, some arg)).toList

/-- The options are declared that way, and the words are told apart. -/
def Form.WellFormed : Form → Prop
  | .flags c cs => c ≠ '-' ∧ ∀ d ∈ c :: cs, kind optstring d = .flag
  | .attached cs c arg => (cs ++ [c]).head? ≠ some '-' ∧ (∀ d ∈ cs, kind optstring d = .flag) ∧
      (kind optstring c = .required ∨ kind optstring c = .optional) ∧ arg ≠ []
  | .separate cs c _ => (cs ++ [c]).head? ≠ some '-' ∧ (∀ d ∈ cs, kind optstring d = .flag) ∧
      kind optstring c = .required
  | .long name => name ≠ [] ∧ '=' ∉ name ∧
      ∃ o, resolve longopts name = some o ∧ o.has_arg ≠ .required_argument
  | .longAttached name _ => name ≠ [] ∧ '=' ∉ name ∧
      ∃ o, resolve longopts name = some o ∧ o.has_arg ≠ .no_argument
  | .longSeparate name _ => name ≠ [] ∧ '=' ∉ name ∧
      ∃ o, resolve longopts name = some o ∧ o.has_arg = .required_argument

end Forms

variable {optstring : CString} {longopts : List Opt}

/-- Flags are read one by one. -/
theorem cluster_flags (next : Option (List Char)) {cs : List Char}
    (h : ∀ d ∈ cs, kind optstring d = .flag) (rest : List Char) :
    cluster optstring next (cs ++ rest) =
      (cs.map (fun c => (c, none)) ++ (cluster optstring next rest).1,
        (cluster optstring next rest).2) := by
  induction cs with
  | nil => rfl
  | cons c cs ih =>
      rw [List.cons_append, cluster.eq_def]
      simp only [h c List.mem_cons_self, ih fun d hd => h d (List.mem_cons_of_mem _ hd),
        List.map_cons, List.cons_append]

/-- A word of short options. -/
theorem word_short {next : Option (List Char)} {cs : List Char} (hne : cs ≠ [])
    (hhead : cs.head? ≠ some '-') :
    word optstring longopts next (['-'] ++ cs) = some (cluster optstring next cs) := by
  obtain ⟨c, cs, rfl⟩ := List.exists_cons_of_ne_nil hne
  have hc : c ≠ '-' := fun heq => hhead (congrArg some heq)
  rw [List.singleton_append, word.eq_def]
  split
  · rename_i heq
    exact absurd (List.cons.inj (List.cons.inj heq).2).1 hc
  · rename_i heq
    obtain ⟨rfl, rfl⟩ := List.cons.inj (List.cons.inj heq).2
    rw [if_neg hc]
  · rename_i hne
    exact absurd rfl (hne c cs)

/-- A long option. -/
theorem word_long {next : Option (List Char)} {body : List Char} (hbody : body ≠ []) :
    word optstring longopts next (['-', '-'] ++ body) =
      some ([(long longopts next body).1], (long longopts next body).2) := by
  obtain ⟨c, cs, rfl⟩ := List.exists_cons_of_ne_nil hbody
  rfl

/-- A name without `=` has no argument. -/
theorem split_of_notMem {name : List Char} (h : '=' ∉ name) : split name = (name, none) := by
  have hall : ∀ c ∈ name, decide (c ≠ '=') = true := fun c hc =>
    decide_eq_true fun heq => h (heq ▸ hc)
  rw [split, List.takeWhile_eq_self_iff.mpr hall, List.dropWhile_eq_nil_iff.mpr hall]
  rfl

/-- What is behind the first `=` is the argument. -/
theorem split_append {name : List Char} (h : '=' ∉ name) (arg : List Char) :
    split (name ++ '=' :: arg) = (name, some arg) := by
  have hall : ∀ c ∈ name, decide (c ≠ '=') = true := fun c hc =>
    decide_eq_true fun heq => h (heq ▸ hc)
  rw [split, List.takeWhile_append_of_pos hall, List.dropWhile_append_of_pos hall]
  simp

/-- What a name resolves to is the only match. -/
theorem filter_of_resolve {name : List Char} {o : Opt} (h : resolve longopts name = some o) :
    (longopts.filter fun o => name.isPrefixOf o.name.text) = [o] := by
  rw [resolve] at h
  split at h
  · rename_i o' heq
    rw [heq, Option.some.inj h]
  · cases h

section Words

variable (ws : List (List Char)) {rs : List Result} {b : Bool}

variable (longopts) in
/-- The options of a word of short ones come first. -/
theorem parse_short {cs : List Char} (hne : cs ≠ []) (hhead : cs.head? ≠ some '-')
    (h : cluster optstring ws.head? cs = (rs, b)) :
    parse optstring longopts ((['-'] ++ cs) :: ws) =
      (rs ++ (parse optstring longopts (if b then ws.tail else ws)).1,
        (parse optstring longopts (if b then ws.tail else ws)).2) :=
  parse_cons ((word_short hne hhead).trans (congrArg some h))

variable (optstring) in
/-- A long option comes first. -/
theorem parse_long {body : List Char} (hbody : body ≠ []) {r : Result}
    (h : long longopts ws.head? body = (r, b)) :
    parse optstring longopts ((['-', '-'] ++ body) :: ws) =
      (r :: (parse optstring longopts (if b then ws.tail else ws)).1,
        (parse optstring longopts (if b then ws.tail else ws)).2) := by
  have hword : word optstring longopts ws.head? (['-', '-'] ++ body) = some ([r], b) := by
    rw [word_long hbody, h]
  exact parse_cons hword

end Words

/-- **A form is read as it was meant**, and nothing of the words behind it. -/
theorem parse_form {f : Form} (hf : f.WellFormed optstring longopts) (ws : List (List Char)) :
    parse optstring longopts (f.render ++ ws) =
      (f.meaning longopts ++ (parse optstring longopts ws).1,
        (parse optstring longopts ws).2) := by
  cases f with
  | flags c cs =>
      obtain ⟨hc, hflags⟩ := hf
      have hcluster := cluster_flags ws.head? hflags []
      rw [List.append_nil] at hcluster
      simpa [Form.meaning, Form.render, cluster] using
        parse_short longopts ws (List.cons_ne_nil c cs) (by simpa using hc) hcluster
  | attached cs c arg =>
      obtain ⟨hhead, hflags, hkind, harg⟩ := hf
      have hlast : cluster optstring ws.head? (c :: arg) = ([(c, some arg)], false) := by
        rcases hkind with hkind | hkind <;> simp [cluster, hkind, harg]
      have hcluster := cluster_flags ws.head? hflags (c :: arg)
      rw [hlast] at hcluster
      have hhead' : (cs ++ c :: arg).head? ≠ some '-' := by
        cases cs <;> simpa using hhead
      simpa [Form.meaning, Form.render] using
        parse_short longopts ws (by simp) hhead' hcluster
  | separate cs c arg =>
      obtain ⟨hhead, hflags, hkind⟩ := hf
      have hlast : cluster optstring (some arg) [c] = ([(c, some arg)], true) := by
        simp [cluster, hkind]
      have hcluster := cluster_flags (some arg) hflags [c]
      rw [hlast] at hcluster
      simpa [Form.meaning, Form.render] using
        parse_short longopts (arg :: ws) (by simp) hhead hcluster
  | long name =>
      obtain ⟨hne, hsign, o, hresolve, harg⟩ := hf
      have hlong : long longopts ws.head? name = ((o.retval, none), false) := by
        rw [long, split_of_notMem hsign, filter_of_resolve hresolve]
        cases hhas : o.has_arg with
        | no_argument | optional_argument =>
            simp only [hhas]
            rfl
        | required_argument => exact absurd hhas harg
      simpa [Form.meaning, Form.render, hresolve] using
        parse_long optstring ws hne hlong
  | longAttached name arg =>
      obtain ⟨hne, hsign, o, hresolve, harg⟩ := hf
      have hlong : long longopts ws.head? (name ++ '=' :: arg) = ((o.retval, some arg), false) := by
        rw [long, split_append hsign, filter_of_resolve hresolve]
        cases hhas : o.has_arg with
        | no_argument => exact absurd hhas harg
        | required_argument | optional_argument =>
            simp only [hhas]
            rfl
      simpa [Form.meaning, Form.render, hresolve] using
        parse_long optstring ws (by simp) hlong
  | longSeparate name arg =>
      obtain ⟨hne, hsign, o, hresolve, harg⟩ := hf
      have hlong : long longopts (some arg) name = ((o.retval, some arg), true) := by
        rw [long, split_of_notMem hsign, filter_of_resolve hresolve]
        simp only [harg]
        rfl
      simpa [Form.meaning, Form.render, hresolve] using
        parse_long optstring (arg :: ws) hne hlong

/-- What is written in these forms is read as it was meant. -/
theorem parse_render {forms : List Form} (h : ∀ f ∈ forms, f.WellFormed optstring longopts)
    (ws : List (List Char)) :
    parse optstring longopts (forms.flatMap Form.render ++ ws) =
      (forms.flatMap (Form.meaning longopts) ++ (parse optstring longopts ws).1,
        (parse optstring longopts ws).2) := by
  induction forms with
  | nil => rfl
  | cons f forms ih =>
      rw [List.flatMap_cons, List.append_assoc, parse_form (h f List.mem_cons_self),
        ih fun g hg => h g (List.mem_cons_of_mem _ hg), List.flatMap_cons, List.append_assoc]

/-- The words behind the options, if they can be told from them: they follow `--`, or the first
one does not look like an option. -/
inductive Behind (operands : List (List Char)) : List (List Char) → Prop
  | dashes : Behind operands (['-', '-'] :: operands)
  | plain (h : ∀ v, operands.head? = some v → v.head? ≠ some '-' ∨ v = ['-']) :
      Behind operands operands

/-- Operands are not parsed. -/
theorem parse_behind {operands ws : List (List Char)} (h : Behind operands ws) :
    parse optstring longopts ws = ([], operands) := by
  cases h with
  | dashes => rfl
  | plain h =>
      cases operands with
      | nil => rfl
      | cons v vs =>
          have hv := h v rfl
          have hnone : word optstring longopts vs.head? v = none := by
            rw [word.eq_def]
            split
            · rcases hv with hv | hv
              · exact absurd rfl hv
              · cases hv
            · rcases hv with hv | hv
              · exact absurd rfl hv
              · cases hv
            · rfl
          have hne : v ≠ ['-', '-'] := by
            rintro rfl
            rcases hv with hv | hv
            · exact hv rfl
            · cases hv
          simp only [parse, hnone, if_neg hne]

/-- **What is written is read.** Options written in any of the forms, and followed by words that
can be told from them, are returned by `getopt_long` one after the other with their arguments,
and `optind` is left at the words behind. -/
theorem getopt_long_renders {argv : List CString} {name : List Char} {forms : List Form}
    {operands ws : List (List Char)} (hforms : ∀ f ∈ forms, f.WellFormed optstring longopts)
    (hws : Behind operands ws)
    (hargv : argv.map CString.text = name :: (forms.flatMap Form.render ++ ws)) :
    ∃ n t, loop argv optstring longopts n .init =
        some (forms.flatMap (Form.meaning longopts), t) ∧
      (argv.drop t.optind).map CString.text = operands := by
  have hwords : (argv.drop State.init.optind).map CString.text =
      forms.flatMap Form.render ++ ws := by
    rw [List.map_drop, hargv]
    rfl
  have hstart : Start argv .init (forms.flatMap Form.render ++ ws) :=
    ⟨hwords, fun p hp => nomatch hp⟩
  have hreads : ∃ t u, Reads argv optstring longopts .init
      (parse optstring longopts (forms.flatMap Form.render ++ ws)).1 t ∧
      getopt_long argv optstring longopts t = some (none, u) ∧
      (argv.drop u.optind).map CString.text =
        (parse optstring longopts (forms.flatMap Form.render ++ ws)).2 := reads_parse hstart
  rw [parse_render hforms, parse_behind hws, List.append_nil] at hreads
  obtain ⟨t, u, hreads, hu, hrest⟩ := hreads
  exact ⟨_, u, loop_of_reads hreads hu (Nat.lt_succ_self _), hrest⟩

/-- `smu -dl --fl a.bin b` -/
def flashLine : List CString :=
  [ofText "smu".toList, ofText "-dl".toList, ofText "--fl".toList, ofText "a.bin".toList,
    ofText "b".toList]

/-- An option that takes a file. -/
def flashOption : Opt := ⟨ofText "flash".toList, .required_argument, none, 'f'⟩

/-- Two flags in a word, an option with its argument in the next word, and a word behind. -/
theorem getopt_long_renders_flashLine : ∃ n t,
    loop flashLine (ofText "dl".toList) [flashOption] n .init =
        some ([('d', none), ('l', none), ('f', some "a.bin".toList)], t) ∧
      (flashLine.drop t.optind).map CString.text = ["b".toList] := by
  have hforms : ∀ f ∈ [Form.flags 'd' ['l'], .longSeparate "fl".toList "a.bin".toList],
      f.WellFormed (ofText "dl".toList) [flashOption] := by
    intro f hf
    rcases List.mem_cons.mp hf with rfl | hf
    · exact ⟨by decide, List.forall_mem_cons.mpr ⟨rfl, List.forall_mem_singleton.mpr rfl⟩⟩
    · obtain rfl := List.mem_singleton.mp hf
      exact ⟨by decide, by decide, flashOption, rfl, rfl⟩
  have hargv : flashLine.map CString.text = "smu".toList ::
      ([Form.flags 'd' ['l'], .longSeparate "fl".toList "a.bin".toList].flatMap Form.render ++
        ["b".toList]) := rfl
  refine getopt_long_renders hforms (.plain fun v hv => .inl ?_) hargv
  rw [← Option.some.inj hv]
  decide

/-! ### Arguments -/

/-- What a result without an argument can be. -/
def Bare (optstring : CString) (longopts : List Opt) (c : Char) : Prop :=
  c = '?' ∨ c = ':' ∨ kind optstring c ≠ .required ∨
    ∃ o ∈ longopts, o.has_arg ≠ .required_argument ∧ c = o.retval

/-- The answer to a missing argument has none. -/
theorem bare_missing : Bare optstring longopts (missing optstring) := by
  rw [missing]
  split
  · exact .inr (.inl rfl)
  · exact .inl rfl

/-- Short options without an argument are bare. -/
theorem bare_of_cluster {next : Option (List Char)} {cs : List Char} {r : Result}
    (hr : r ∈ (cluster optstring next cs).1) (hnone : r.2 = none) :
    Bare optstring longopts r.1 := by
  induction cs with
  | nil => exact absurd hr List.not_mem_nil
  | cons c cs ih =>
      rw [cluster.eq_def] at hr
      cases hkind : kind optstring c with
      | unknown =>
          simp only [hkind] at hr
          rcases List.mem_cons.mp hr with rfl | hr
          · exact .inl rfl
          · exact ih hr
      | flag =>
          simp only [hkind] at hr
          rcases List.mem_cons.mp hr with rfl | hr
          · exact .inr (.inr (.inl (by rw [hkind]; decide)))
          · exact ih hr
      | optional =>
          simp only [hkind] at hr
          rw [List.mem_singleton.mp hr]
          exact .inr (.inr (.inl (by rw [hkind]; decide)))
      | required =>
          simp only [hkind] at hr
          split at hr
          · split at hr
            · rw [List.mem_singleton.mp hr] at hnone
              cases hnone
            · rw [List.mem_singleton.mp hr]
              exact bare_missing
          · rw [List.mem_singleton.mp hr] at hnone
            cases hnone

/-- Long options without an argument are bare. -/
theorem bare_of_long {next : Option (List Char)} {body : List Char}
    (hnone : (long longopts next body).1.2 = none) :
    Bare optstring longopts (long longopts next body).1.1 := by
  rw [long] at hnone ⊢
  split
  · rename_i o hfilter
    have ho : o ∈ longopts := List.mem_of_mem_filter (hfilter ▸ List.mem_singleton_self o)
    rw [hfilter] at hnone
    cases hhas : o.has_arg with
    | no_argument =>
        cases harg : (split body).2 with
        | none =>
            exact .inr (.inr (.inr ⟨o, ho, by rw [hhas]; decide, rfl⟩))
        | some arg =>
            exact .inl rfl
    | optional_argument =>
        exact .inr (.inr (.inr ⟨o, ho, by rw [hhas]; decide, rfl⟩))
    | required_argument =>
        cases harg : (split body).2 with
        | some arg =>
            simp only [hhas, harg] at hnone
            cases hnone
        | none =>
            cases next with
            | some w =>
                simp only [hhas, harg] at hnone
                cases hnone
            | none =>
                exact .inr (.inl rfl)
  · exact .inl rfl

/-- The options of a word that have no argument are bare. -/
theorem bare_of_word {next : Option (List Char)} {v : List Char} {rs : List Result} {b : Bool}
    (hword : word optstring longopts next v = some (rs, b)) {r : Result} (hr : r ∈ rs)
    (hnone : r.2 = none) : Bare optstring longopts r.1 := by
  rw [word.eq_def] at hword
  split at hword
  · obtain ⟨rfl, rfl⟩ := Prod.mk.inj (Option.some.inj hword)
    rw [List.mem_singleton.mp hr] at hnone ⊢
    exact bare_of_long hnone
  · rename_i c cs _
    split at hword
    · cases hword
    · have hcluster := Option.some.inj hword
      have hr' : r ∈ (cluster optstring next (c :: cs)).1 := by
        rw [hcluster]
        exact hr
      exact bare_of_cluster hr' hnone
  · cases hword

/-- **An option that takes an argument is returned with it**, or it is not returned. -/
theorem bare_of_parse {ws : List (List Char)} {r : Result}
    (hr : r ∈ (parse optstring longopts ws).1) (hnone : r.2 = none) :
    Bare optstring longopts r.1 := by
  induction hlen : ws.length using Nat.strongRecOn generalizing ws with
  | _ n ih =>
      rcases ws with - | ⟨v, vs⟩
      · exact absurd hr List.not_mem_nil
      · cases hword : word optstring longopts vs.head? v with
        | none =>
            simp only [parse, hword] at hr
            split at hr <;> exact absurd hr List.not_mem_nil
        | some p =>
            obtain ⟨rs, b⟩ := p
            rw [parse_cons hword] at hr
            rcases List.mem_append.mp hr with hr | hr
            · exact bare_of_word hword hr hnone
            · refine ih _ ?_ hr rfl
              rw [← hlen, List.length_cons]
              cases b with
              | false => exact Nat.lt_succ_self _
              | true => simp only [if_true, List.length_tail]; omega

end Getopt

/-! ### The program -/

namespace Smu

open Getopt

/-- The short options. -/
def optstring : CString := ofText "hvplsdrw:f:".toList

/-- `long_options`. -/
def long_options : List Opt :=
  [⟨ofText "help".toList, .no_argument, none, 'a'⟩,
    ⟨ofText "version".toList, .no_argument, none, 'v'⟩,
    ⟨ofText "list".toList, .no_argument, none, 'l'⟩,
    ⟨ofText "stream".toList, .no_argument, none, 's'⟩,
    ⟨ofText "display-calibration".toList, .no_argument, none, 'd'⟩,
    ⟨ofText "reset-calibration".toList, .no_argument, none, 'r'⟩,
    ⟨ofText "write-calibration".toList, .required_argument, none, 'w'⟩,
    ⟨ofText "flash".toList, .required_argument, none, 'f'⟩]

/-- What the program does for an option; a file is the text that `optarg` points to, or `NULL`. -/
inductive Command
  | list_devices
  | stream_samples
  | display_calibration
  | reset_calibration
  | write_calibration (file : Option (List Char))
  | flash_firmware (file : Option (List Char))
  | display_usage
  | version
  deriving DecidableEq

/-- The cases of `switch (opt)`; `none` is the default. -/
def command : Result → Option Command
  | ('l', _) => some .list_devices
  | ('s', _) => some .stream_samples
  | ('d', _) => some .display_calibration
  | ('r', _) => some .reset_calibration
  | ('w', optarg) => some (.write_calibration optarg)
  | ('f', optarg) => some (.flash_firmware optarg)
  | ('h', _) => some .display_usage
  | ('v', _) => some .version
  | _ => none

section Main

variable {σ : Type*} (perform : σ → Command → Option (σ × Bool)) (add_all : σ → σ × ℤ)
  (argv : List CString)

/-- The usage text is displayed, and `EXIT_FAILURE` returned. -/
def usage (s : σ) : Option (σ × Bool) := (perform s .display_usage).map fun r => (r.1, false)

/-- The loop of `main` over the options, as many times at most. A command that returns tells whether
the program goes on or returns `EXIT_FAILURE`; one that does not, as `stream_samples`, is `none`
inside. -/
def options : ℕ → State → σ → Option (Option (σ × Bool))
  | 0, _, _ => none
  | n + 1, g, s =>
      match getopt_long argv optstring long_options g with
      | some (some opt, g) =>
          match command (opt, g.optarg.map (Ptr.text argv)) with
          | some c =>
              match perform s c with
              | some (s, true) => options n g s
              | stopped => some stopped
          | none => some (usage perform s)
      | some (none, _) => some (some (s, true))
      | none => none

/-- `main`, with a number of passes of its loop at most. -/
def main (n : ℕ) (s : σ) : Option (Option (σ × Bool)) :=
  if argv.length = 1 then some (usage perform s)
  else
    let r := add_all s
    if r.2 < 0 then some (some (r.1, false)) else options perform argv n .init r.1

/-- The commands of a list of options, up to the first that fails, does not return or is unknown. -/
def carryOut : σ → List Result → Option (σ × Bool)
  | s, [] => some (s, true)
  | s, r :: rs =>
      match command r with
      | some c =>
          match perform s c with
          | some (s, true) => carryOut s rs
          | stopped => stopped
      | none => usage perform s

/-- What the program is to do: nothing without a word, or without its devices. -/
def carryOutAll (rs : List Result) (s : σ) : Option (σ × Bool) :=
  if argv.length = 1 then usage perform s
  else if (add_all s).2 < 0 then some ((add_all s).1, false)
  else carryOut perform (add_all s).1 rs

variable {perform argv}

/-- The loop carries out what the calls of `getopt_long` return. -/
theorem options_of_reads {g t u : State} {rs : List Result} {s : σ}
    (h : Reads argv optstring long_options g rs t)
    (hend : getopt_long argv optstring long_options t = some (none, u)) {n : ℕ}
    (hn : rs.length < n) : options perform argv n g s = some (carryOut perform s rs) := by
  induction h generalizing n s with
  | nil g =>
      obtain ⟨n, rfl⟩ := Nat.exists_eq_succ_of_ne_zero (Nat.ne_of_gt hn)
      rw [options, hend]
      rfl
  | cons hcall hrest ih =>
      obtain ⟨n, rfl⟩ := Nat.exists_eq_succ_of_ne_zero (Nat.ne_of_gt (Nat.lt_of_le_of_lt
        (Nat.zero_le _) hn))
      rw [options, hcall, carryOut]
      simp only
      split
      · split
        · exact ih hend (Nat.lt_of_succ_lt_succ hn)
        · rfl
      · rfl

/-- Where the commands return, the program does. -/
theorem exists_carryOut (hperform : ∀ s c, ∃ r, perform s c = some r) (s : σ) (rs : List Result) :
    ∃ r, carryOut perform s rs = some r := by
  induction rs generalizing s with
  | nil => exact ⟨_, rfl⟩
  | cons r rs ih =>
      rw [carryOut]
      cases command r with
      | none =>
          obtain ⟨q, hq⟩ := hperform s .display_usage
          exact ⟨_, by simp only [usage, hq, Option.map_some]; rfl⟩
      | some c =>
          obtain ⟨⟨t, ok⟩, hq⟩ := hperform s c
          cases ok with
          | true =>
              simp only [hq]
              exact ih t
          | false => exact ⟨_, by simp only [hq]; rfl⟩

/-- A command that takes a file is one of the two options that do. -/
theorem of_command {r : Result}
    (h : command r = some (.write_calibration none) ∨ command r = some (.flash_firmware none)) :
    (r.1 = 'w' ∨ r.1 = 'f') ∧ r.2 = none := by
  obtain ⟨c, arg⟩ := r
  rw [command.eq_def] at h
  split at h <;> simp_all

/-- Both take an argument, whichever way they are written. -/
theorem not_bare {c : Char} (h : c = 'w' ∨ c = 'f') : ¬Bare optstring long_options c := by
  have hshort : kind optstring 'w' = .required ∧ kind optstring 'f' = .required := by decide
  have hlong : ∀ o ∈ long_options, o.has_arg ≠ .required_argument →
      o.retval ≠ 'w' ∧ o.retval ≠ 'f' := by decide
  rintro (hc | hc | hc | ⟨o, ho, hhas, hc⟩)
  · rcases h with rfl | rfl <;> exact absurd hc (by decide)
  · rcases h with rfl | rfl <;> exact absurd hc (by decide)
  · rcases h with rfl | rfl
    · exact hc hshort.1
    · exact hc hshort.2
  · rcases h with rfl | rfl
    · exact (hlong o ho hhas).1 hc.symm
    · exact (hlong o ho hhas).2 hc.symm

end Main

end Smu

end Libsmu

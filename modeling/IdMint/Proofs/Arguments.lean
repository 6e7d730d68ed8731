import IdMint.Command.Options

/-!
# Every argument counts once

Whether an argument is a flag, a value or a positional argument depends on what
stands before it, so the arguments are cut into pieces from the left: a flag with
its value is one piece, and everything else is a piece by itself. `WellCut` says
which pieces may follow one another, in as many cases as there are kinds of
pieces, and says it of the pieces alone, without going through the arguments.

The point of this module is that the cut is there and that there is only one. So
every argument has exactly one part in what the parser returns, and all of that
can be told from the pieces: the positional arguments, the calls of the handlers
in their order, and what is written to the error stream. A problem never keeps a later
piece from being handled.
-/

namespace IdMint.Command

variable {γ : Type}

/-! ## Names -/

theorem findFlag?_eq_none_iff {flags : List (Flag γ)} {name : Bytes} :
    findFlag? flags name = none ↔ ∀ flag ∈ flags, flag.name ≠ name := by
  rw [findFlag?, List.find?_eq_none]
  simp only [List.mem_reverse, decide_eq_true_eq, ne_eq]

/-- The flag is the one that its name stands for: of those registered under the name it is
the last. The mark that ends the flags is no name. -/
def Stands (flags : List (Flag γ)) (flag : Flag γ) : Prop :=
  flag.name ≠ ascii "--" ∧
    ∃ before after, flags = before ++ flag :: after ∧ ∀ other ∈ after, other.name ≠ flag.name

theorem findFlag?_eq_some_iff {flags : List (Flag γ)} {name : Bytes} {flag : Flag γ} :
    findFlag? flags name = some flag ↔
      flag.name = name ∧
        ∃ before after, flags = before ++ flag :: after ∧
          ∀ other ∈ after, other.name ≠ flag.name := by
  rw [findFlag?, List.find?_eq_some_iff_append]
  simp only [decide_eq_true_eq, Bool.not_eq_true', decide_eq_false_iff_not]
  constructor
  · rintro ⟨rfl, after, before, hsplit, hafter⟩
    refine ⟨rfl, before.reverse, after.reverse, ?_, ?_⟩
    · rw [← List.reverse_reverse flags, hsplit]
      simp
    · intro other hother
      exact hafter other (List.mem_reverse.mp hother)
  · rintro ⟨rfl, before, after, rfl, hafter⟩
    refine ⟨rfl, after.reverse, before.reverse, by simp, ?_⟩
    intro other hother
    exact hafter other (List.mem_reverse.mp hother)

theorem stands_of_findFlag? {flags : List (Flag γ)} {name : Bytes} {flag : Flag γ}
    (hmark : name ≠ ascii "--") (h : findFlag? flags name = some flag) : Stands flags flag := by
  obtain ⟨rfl, hlast⟩ := findFlag?_eq_some_iff.mp h
  exact ⟨hmark, hlast⟩

theorem Stands.findFlag? {flags : List (Flag γ)} {flag : Flag γ} (h : Stands flags flag) :
    findFlag? flags flag.name = some flag :=
  findFlag?_eq_some_iff.mpr ⟨rfl, h.2⟩

/-! ## Pieces -/

/-- Arguments that belong together, and what they are taken for. -/
inductive Piece (γ : Type) where
  /-- The mark that ends the flags. -/
  | separator
  /-- A flag that takes no value. -/
  | plain (flag : Flag γ)
  /-- A flag and the argument after it. -/
  | valued (flag : Flag γ) (value : Bytes)
  /-- A flag that takes a value and is the last argument. -/
  | dangling (flag : Flag γ)
  /-- An argument that looks like a flag and is none. -/
  | unknown (argument : Bytes)
  | positional (argument : Bytes)

namespace Piece

/-- The arguments that a piece is made of. -/
def arguments : Piece γ → List Bytes
  | separator => [ascii "--"]
  | plain flag => [flag.name]
  | valued flag value => [flag.name, value]
  | dangling flag => [flag.name]
  | unknown argument => [argument]
  | positional argument => [argument]

/-- The handler that is called for a piece, and what it is given. -/
def call? : Piece γ → Option (Flag γ × Bytes)
  | plain flag => some (flag, [])
  | valued flag value => some (flag, value)
  | _ => none

def positional? : Piece γ → Option Bytes
  | positional argument => some argument
  | _ => none

/-- The line that is written against a piece which has no handler. -/
def line? : Piece γ → Option Bytes
  | dangling flag => some (ascii "Option " ++ flag.name ++ ascii " requires a value\n")
  | unknown argument => some (ascii "Unknown option: " ++ argument ++ ascii "\n")
  | _ => none

end Piece

/-- Pieces that arguments may be cut into. -/
inductive WellCut (flags : List (Flag γ)) : List (Piece γ) → Prop
  | nil : WellCut flags []
  /-- After the mark there is nothing but positional arguments. -/
  | separator (rest : List Bytes) : WellCut flags (.separator :: rest.map .positional)
  | plain {flag : Flag γ} {pieces : List (Piece γ)} (hflag : Stands flags flag)
      (htakes : flag.takesValue = false) (hrest : WellCut flags pieces) :
      WellCut flags (.plain flag :: pieces)
  /-- A value may be any argument, a flag or the mark no less than others. -/
  | valued {flag : Flag γ} {value : Bytes} {pieces : List (Piece γ)} (hflag : Stands flags flag)
      (htakes : flag.takesValue = true) (hrest : WellCut flags pieces) :
      WellCut flags (.valued flag value :: pieces)
  | dangling {flag : Flag γ} (hflag : Stands flags flag) (htakes : flag.takesValue = true) :
      WellCut flags [.dangling flag]
  | unknown {argument : Bytes} {pieces : List (Piece γ)} (hmark : argument ≠ ascii "--")
      (hname : ∀ flag ∈ flags, flag.name ≠ argument)
      (hminus : argument.head? = some '-'.toUInt8)
      (hnumber : Decimal.parseInt64? argument = none) (hrest : WellCut flags pieces) :
      WellCut flags (.unknown argument :: pieces)
  | positional {argument : Bytes} {pieces : List (Piece γ)}
      (hname : ∀ flag ∈ flags, flag.name ≠ argument)
      (hargument : argument.head? ≠ some '-'.toUInt8 ∨ Decimal.parseInt64? argument ≠ none)
      (hrest : WellCut flags pieces) : WellCut flags (.positional argument :: pieces)

/-! ## The one cut -/

/-- The pieces of a list of arguments. -/
def cut (flags : List (Flag γ)) : List Bytes → List (Piece γ)
  | [] => []
  | argument :: rest =>
    if argument = ascii "--" then .separator :: rest.map .positional
    else
      match findFlag? flags argument with
      | some flag =>
        if flag.takesValue then
          match rest with
          | [] => [.dangling flag]
          | value :: rest => .valued flag value :: cut flags rest
        else .plain flag :: cut flags rest
      | none =>
        (if LooksLikeOption argument then .unknown argument else .positional argument)
          :: cut flags rest

theorem flatMap_positional (arguments : List Bytes) :
    (arguments.map (Piece.positional (γ := γ))).flatMap Piece.arguments = arguments := by
  rw [List.flatMap_map]
  exact List.flatMap_singleton' arguments

theorem flatMap_cut (flags : List (Flag γ)) (arguments : List Bytes) :
    (cut flags arguments).flatMap Piece.arguments = arguments := by
  fun_induction cut flags arguments with
  | case1 => rfl
  | case2 rest =>
      rw [List.flatMap_cons, flatMap_positional]
      rfl
  | case3 argument _ flag hflag _ =>
      rw [← (findFlag?_eq_some_iff.mp hflag).1]
      rfl
  | case4 argument _ flag hflag _ value rest ih =>
      rw [List.flatMap_cons, ih, ← (findFlag?_eq_some_iff.mp hflag).1]
      rfl
  | case5 argument rest _ flag hflag _ ih =>
      rw [List.flatMap_cons, ih, ← (findFlag?_eq_some_iff.mp hflag).1]
      rfl
  | case6 argument rest _ _ ih =>
      rw [List.flatMap_cons, ih]
      split
      · rfl
      · rfl

theorem wellCut_cut (flags : List (Flag γ)) (arguments : List Bytes) :
    WellCut flags (cut flags arguments) := by
  fun_induction cut flags arguments with
  | case1 => exact .nil
  | case2 rest => exact .separator rest
  | case3 argument hmark flag hflag htakes =>
      exact .dangling (stands_of_findFlag? hmark hflag) htakes
  | case4 argument hmark flag hflag htakes value rest ih =>
      exact .valued (stands_of_findFlag? hmark hflag) htakes ih
  | case5 argument rest hmark flag hflag htakes ih =>
      exact .plain (stands_of_findFlag? hmark hflag) (Bool.eq_false_iff.mpr htakes) ih
  | case6 argument rest hmark hflag ih =>
      have hname := findFlag?_eq_none_iff.mp hflag
      by_cases hlooks : LooksLikeOption argument
      · rw [if_pos hlooks]
        exact .unknown hmark hname hlooks.1 hlooks.2 ih
      · rw [if_neg hlooks]
        exact .positional hname (Decidable.not_and_iff_or_not.mp hlooks) ih

/-- No other cut keeps to the rules. -/
theorem cut_flatMap {flags : List (Flag γ)} {pieces : List (Piece γ)} (h : WellCut flags pieces) :
    cut flags (pieces.flatMap Piece.arguments) = pieces := by
  induction h with
  | nil => rfl
  | separator rest =>
      rw [List.flatMap_cons, flatMap_positional, Piece.arguments, List.singleton_append, cut,
        if_pos rfl]
  | plain hflag htakes _ ih =>
      rw [List.flatMap_cons, Piece.arguments, List.singleton_append, cut.eq_def]
      simp only [if_neg hflag.1, hflag.findFlag?, htakes, Bool.false_eq_true, if_false, ih]
  | valued hflag htakes _ ih =>
      rw [List.flatMap_cons, Piece.arguments, cut.eq_def]
      simp only [List.cons_append, List.nil_append, if_neg hflag.1, hflag.findFlag?, htakes,
        if_true, ih]
  | dangling hflag htakes =>
      rw [List.flatMap_singleton, Piece.arguments, cut.eq_def]
      simp only [if_neg hflag.1, hflag.findFlag?, htakes, if_true]
  | @unknown argument _ hmark hname hminus hnumber _ ih =>
      have hlooks : LooksLikeOption argument := ⟨hminus, hnumber⟩
      rw [List.flatMap_cons, Piece.arguments, List.singleton_append, cut.eq_def]
      simp only [if_neg hmark, findFlag?_eq_none_iff.mpr hname, if_pos hlooks, ih]
  | @positional argument _ hname hargument _ ih =>
      have hlooks : ¬ LooksLikeOption argument := Decidable.not_and_iff_or_not.mpr hargument
      have hmark : argument ≠ ascii "--" := by
        rintro rfl
        exact hlooks (by decide)
      rw [List.flatMap_cons, Piece.arguments, List.singleton_append, cut.eq_def]
      simp only [if_neg hmark, findFlag?_eq_none_iff.mpr hname, if_neg hlooks, ih]

/-! ## What comes of the pieces -/

/-- What the handlers answer that are called one after the other, each on the configuration
that the one before it leaves. -/
def answers (config : γ) : List (Flag γ × Bytes) → List (Handled γ)
  | [] => []
  | (flag, value) :: calls =>
    let answer := flag.handle value config
    answer :: answers answer.config calls

/-- The configuration that the last of the handlers leaves. -/
def configAfter (config : γ) (calls : List (Flag γ × Bytes)) : γ :=
  calls.foldl (fun config call => (call.1.handle call.2 config).config) config

/-- All that is written for pieces, in their order: what a handler writes when it is called,
and the lines of the pieces that have no handler. -/
def written (config : γ) : List (Piece γ) → Bytes
  | [] => []
  | piece :: pieces =>
    match piece.call? with
    | some (flag, value) =>
      let answer := flag.handle value config
      answer.report ++ written answer.config pieces
    | none => piece.line?.getD [] ++ written config pieces

/-- What the parser has to return for pieces. -/
def summary (config : γ) (pieces : List (Piece γ)) : Parsed γ where
  config := configAfter config (pieces.filterMap Piece.call?)
  positional := pieces.filterMap Piece.positional?
  isFine := (answers config (pieces.filterMap Piece.call?)).all Handled.isAccepted
    && pieces.all fun piece => piece.line?.isNone
  report := written config pieces

theorem summary_positional (config : γ) (arguments : List Bytes) :
    summary config (arguments.map .positional) = { config, positional := arguments } := by
  induction arguments with
  | nil => rfl
  | cons argument arguments ih => exact congrArg (Parsed.withPositional argument) ih

theorem summary_of_call {piece : Piece γ} {flag : Flag γ} {value : Bytes}
    (hcall : piece.call? = some (flag, value)) (config : γ) (pieces : List (Piece γ)) :
    summary config (piece :: pieces)
      = (summary (flag.handle value config).config pieces).afterHandled
          (flag.handle value config) := by
  have hplain : piece.line? = none ∧ piece.positional? = none := by
    cases piece with
    | plain | valued => exact ⟨rfl, rfl⟩
    | separator | dangling | unknown | positional => cases hcall
  simp only [summary, written, List.filterMap_cons, List.all_cons, answers, configAfter,
    List.foldl_cons, Parsed.afterHandled, hcall, hplain, Option.isNone_none, Bool.true_and,
    Bool.and_assoc]

theorem summary_of_line {piece : Piece γ} {line : Bytes} (hline : piece.line? = some line)
    (config : γ) (pieces : List (Piece γ)) :
    summary config (piece :: pieces) = (summary config pieces).afterProblem line := by
  have hplain : piece.call? = none ∧ piece.positional? = none := by
    cases piece with
    | dangling | unknown => exact ⟨rfl, rfl⟩
    | separator | plain | valued | positional => cases hline
  simp only [summary, written, List.filterMap_cons, List.all_cons, Parsed.afterProblem, hline,
    hplain, Option.isNone_some, Bool.false_and, Bool.and_false, Option.getD_some]

theorem parseOptions_eq_summary (flags : List (Flag γ)) (arguments : List Bytes) (config : γ) :
    parseOptions flags arguments config = summary config (cut flags arguments) := by
  fun_induction cut flags arguments generalizing config with
  | case1 => rfl
  | case2 rest =>
      rw [parseOptions, if_pos rfl]
      exact (summary_positional config rest).symm
  | case3 argument hmark flag hflag htakes =>
      rw [parseOptions.eq_def, summary_of_line rfl, (findFlag?_eq_some_iff.mp hflag).1]
      simp only [if_neg hmark, hflag, if_pos htakes]
      rfl
  | case4 argument hmark flag hflag htakes value rest ih =>
      rw [parseOptions.eq_def, summary_of_call rfl]
      simp only [if_neg hmark, hflag, if_pos htakes, ih]
  | case5 argument rest hmark flag hflag htakes ih =>
      rw [parseOptions.eq_def, summary_of_call rfl]
      simp only [if_neg hmark, hflag, if_neg htakes, ih]
  | case6 argument rest hmark hflag ih =>
      rw [parseOptions.eq_def]
      simp only [if_neg hmark, hflag, ih]
      split
      · exact (summary_of_line rfl ..).symm
      · rfl

theorem written_of_quiet {config : γ} {pieces : List (Piece γ)}
    (hquiet : ∀ answer ∈ answers config (pieces.filterMap Piece.call?), answer.report = []) :
    written config pieces = (pieces.filterMap Piece.line?).flatten := by
  induction pieces generalizing config with
  | nil => rfl
  | cons piece pieces ih =>
      cases piece with
      | plain flag | valued flag value =>
          obtain ⟨hanswer, hrest⟩ := List.forall_mem_cons.mp hquiet
          rw [written, Piece.call?]
          simp only [hanswer, List.nil_append]
          exact ih hrest
      | dangling flag | unknown argument => exact congrArg (_ ++ ·) (ih hquiet)
      | separator | positional argument => exact ih hquiet

theorem isFine_summary {config : γ} {pieces : List (Piece γ)} :
    (summary config pieces).isFine = true ↔
      (∀ piece ∈ pieces, piece.line? = none) ∧
        ∀ answer ∈ answers config (pieces.filterMap Piece.call?), answer.isAccepted = true := by
  rw [summary, Bool.and_eq_true, List.all_eq_true, List.all_eq_true]
  simp only [Option.isNone_iff_eq_none]
  exact And.comm

/-! ## Other flags, and what all flags keep -/

theorem cut_congr {flags others : List (Flag γ)} {arguments : List Bytes}
    (h : ∀ argument ∈ arguments, findFlag? others argument = findFlag? flags argument) :
    cut others arguments = cut flags arguments := by
  fun_induction cut flags arguments with
  | case1 => rfl
  | case2 rest => rw [cut, if_pos rfl]
  | case3 argument hmark flag hflag htakes =>
      have hhead := h argument (List.mem_cons_self ..)
      rw [cut.eq_def]
      simp only [if_neg hmark, hhead, hflag, if_pos htakes]
  | case4 argument hmark flag hflag htakes value rest ih =>
      have hhead := h argument (List.mem_cons_self ..)
      have hrest := ih fun a ha => h a (List.mem_cons_of_mem _ (List.mem_cons_of_mem _ ha))
      rw [cut.eq_def]
      simp only [if_neg hmark, hhead, hflag, if_pos htakes, hrest]
  | case5 argument rest hmark flag hflag htakes ih =>
      have hhead := h argument (List.mem_cons_self ..)
      have hrest := ih fun a ha => h a (List.mem_cons_of_mem _ ha)
      rw [cut.eq_def]
      simp only [if_neg hmark, hhead, hflag, if_neg htakes, hrest]
  | case6 argument rest hmark hflag ih =>
      have hhead := h argument (List.mem_cons_self ..)
      have hrest := ih fun a ha => h a (List.mem_cons_of_mem _ ha)
      rw [cut.eq_def]
      simp only [if_neg hmark, hhead, hflag, hrest]

/-- Flags that no argument names make no difference. -/
theorem parseOptions_append {flags more : List (Flag γ)} {arguments : List Bytes}
    (h : ∀ flag ∈ more, flag.name ∉ arguments) (config : γ) :
    parseOptions (flags ++ more) arguments config = parseOptions flags arguments config := by
  have hnames : ∀ argument ∈ arguments,
      findFlag? (flags ++ more) argument = findFlag? flags argument := by
    intro argument hargument
    have hmore : findFlag? more argument = none := by
      apply findFlag?_eq_none_iff.mpr
      rintro flag hflag rfl
      exact h flag hflag hargument
    rw [findFlag?] at hmore ⊢
    rw [List.reverse_append, List.find?_append, hmore, Option.none_or, findFlag?]
  rw [parseOptions_eq_summary, parseOptions_eq_summary, cut_congr hnames]

theorem mem_of_findFlag? {flags : List (Flag γ)} {name : Bytes} {flag : Flag γ}
    (h : findFlag? flags name = some flag) : flag ∈ flags := by
  obtain ⟨_, before, after, rfl, _⟩ := findFlag?_eq_some_iff.mp h
  exact List.mem_append_right _ (List.mem_cons_self ..)

/-- What every handler keeps is true of the configuration in the end. -/
theorem parseOptions_config_induction {P : γ → Prop} {flags : List (Flag γ)}
    (hstep : ∀ flag ∈ flags, ∀ value config, P config → P (flag.handle value config).config)
    {arguments : List Bytes} {config : γ} (hconfig : P config) :
    P (parseOptions flags arguments config).config := by
  fun_induction parseOptions flags arguments config with
  | case1 => exact hconfig
  | case2 => exact hconfig
  | case3 => exact hconfig
  | case4 argument config _ flag hflag _ value rest handled ih =>
      exact ih (hstep flag (mem_of_findFlag? hflag) value config hconfig)
  | case5 argument rest config _ flag hflag _ handled ih =>
      exact ih (hstep flag (mem_of_findFlag? hflag) [] config hconfig)
  | case6 argument rest config _ _ _ ih => exact ih hconfig
  | case7 argument rest config _ _ _ ih => exact ih hconfig

/-- The arguments can be cut into pieces in one way, and every piece has one part in what
the parser returns and writes. The positional arguments are those among the pieces, in order.
The handlers are called for the flags among the pieces, in order and each once, whatever the
ones before them answered. What is written is one line for every unknown option and one for a
flag without its value, and between them, where they were called, what the handlers wrote; if
these wrote nothing, it is the lines and nothing else. And the arguments are fine exactly if
there is no such piece and every handler accepted. -/
theorem arguments_accounted_for (flags : List (Flag γ)) (arguments : List Bytes) (config : γ) :
    ∃ pieces : List (Piece γ),
      pieces.flatMap Piece.arguments = arguments ∧ WellCut flags pieces ∧
      (∀ others : List (Piece γ), others.flatMap Piece.arguments = arguments →
        WellCut flags others → others = pieces) ∧
      let parsed := parseOptions flags arguments config
      let calls := pieces.filterMap Piece.call?
      parsed.positional = pieces.filterMap Piece.positional? ∧
      parsed.config = configAfter config calls ∧
      parsed.report = written config pieces ∧
      ((∀ answer ∈ answers config calls, answer.report = []) →
        parsed.report = (pieces.filterMap Piece.line?).flatten) ∧
      (parsed.isFine = true ↔
        (∀ piece ∈ pieces, piece.line? = none) ∧
          ∀ answer ∈ answers config calls, answer.isAccepted = true) := by
  refine ⟨cut flags arguments, flatMap_cut flags arguments, wellCut_cut flags arguments, ?_, ?_⟩
  · rintro others rfl hothers
    exact (cut_flatMap hothers).symm
  · rw [parseOptions_eq_summary]
    exact ⟨rfl, rfl, rfl, written_of_quiet, isFine_summary⟩

/-- Of two flags with one name the last counts. It gets the mark as its value, and after the
mark that ends the flags its name is an argument like others. What is written stands in the
order of the arguments. -/
example :
    let flags : List (Flag (List Bytes)) :=
      [{ name := ascii "-k", handle := fun _ log => .rejected log [] },
       { name := ascii "-v", handle := fun _ log => .rejected log (ascii "no\n") },
       { name := ascii "-k", takesValue := true
         handle := fun value log => .accepted (value :: log) (ascii "kept\n") }]
    parseOptions flags [ascii "-v", ascii "-k", ascii "--", ascii "-5", ascii "-x", ascii "--",
        ascii "-k"] []
      = { config := [ascii "--"], positional := [ascii "-5", ascii "-k"], isFine := false
          report := ascii "no\nkept\nUnknown option: -x\n" } := by
  decide

end IdMint.Command
